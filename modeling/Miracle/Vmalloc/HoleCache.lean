import Miracle.Vmalloc.Search
import Miracle.Vmalloc.Safety

/-! # What the cache of the search promises

Below the cached area no hole is larger than `cached_hole_size`, among those that begin at or
above `cached_vstart` at a multiple of `cached_align`.  An allocation establishes this; a free
moves the cache below the area that goes; and requests that use the cache only narrow what is
promised.
-/

namespace Miracle.Vmalloc

open SearchTree

theorem isPowerOf2_dvd_of_le {x y : Nat} (powerX : isPowerOf2 x = true) (powerY : isPowerOf2 y = true) (le : x ≤ y) :
    x ∣ y := by
  simp only [isPowerOf2, Bool.and_eq_true, decide_eq_true_eq, beq_iff_eq] at powerX powerY
  obtain ⟨i, rfl⟩ := (Nat.and_sub_one_eq_zero_iff_isPowerOfTwo powerX.1).mp powerX.2
  obtain ⟨j, rfl⟩ := (Nat.and_sub_one_eq_zero_iff_isPowerOfTwo powerY.1).mp powerY.2
  exact pow_dvd_pow 2 ((Nat.pow_le_pow_iff_right (by decide)).mp le)

structure CacheOk (s : Vmap) : Prop where
  power : ∀ cache, s.freeCache = some cache → isPowerOf2 s.cachedAlign = true
  holes : ∀ cache, s.freeCache = some cache → ∀ f n, 0 < n → s.cachedAlign ∣ f → s.cachedVstart ≤ f →
    f < cache.vaEnd → Free s.areaList f n → n ≤ s.cachedHoleSize

theorem CacheOk.empty {s : Vmap} (none : s.freeCache = none) : CacheOk s := by
  refine ⟨fun cache cached => ?_, fun cache cached => ?_⟩ <;>
    exact absurd (none.symm.trans cached) (Option.some_ne_none cache).symm

/-- More areas leave fewer holes. -/
theorem CacheOk.more {s s' : Vmap} (cacheOk : CacheOk s) (subset : ∀ va ∈ s.areaList, va ∈ s'.areaList)
    (cache : s'.freeCache = s.freeCache) (hole : s'.cachedHoleSize = s.cachedHoleSize)
    (vstart : s'.cachedVstart = s.cachedVstart) (align : s'.cachedAlign = s.cachedAlign) : CacheOk s' := by
  refine ⟨fun first cached => ?_, fun first cached f n some aligned lower upper free => ?_⟩
  · rw [align]
    exact cacheOk.power first (cache ▸ cached)
  · rw [hole]
    exact cacheOk.holes first (cache ▸ cached) f n some (align ▸ aligned) (vstart ▸ lower) upper
      fun va mem => free va (subset va mem)

/-! ## Allocation -/

section Alloc

variable {s s' : Vmap} {size a vstart vend : Nat}

/-- The holes below a usable cache, for what the request may use. -/
theorem CacheOk.usable (cacheOk : CacheOk s) (power : isPowerOf2 a = true) {cache : VmapArea}
    (usable : CacheUsable s size a vstart cache) {f n : Nat} (some : 0 < n) (aligned : a ∣ f) (lower : vstart ≤ f)
    (upper : f < cache.vaEnd) (free : Free s.areaList f n) : n ≤ s.cachedHoleSize := by
  have unit := isPowerOf2_dvd_of_le (cacheOk.power cache usable.cached) power usable.align
  exact cacheOk.holes cache usable.cached f n some (unit.trans aligned) (usable.lower.trans lower) upper free

theorem searchCached_cacheOk (cacheOk : CacheOk s) (power : isPowerOf2 a = true) (word : vend < 2 ^ 64)
    {cache : VmapArea} (usable : CacheUsable s size a vstart cache) :
    CacheOk (searchCached s size a vstart vend cache).2 := by
  obtain ⟨cached, isStart, isAlign, grows, -⟩ := searchCached_state a vstart cache word usable.hole
  have areas : (searchCached s size a vstart vend cache).2.areaList = s.areaList := by
    unfold searchCached
    simp only
    split <;> rfl
  refine ⟨fun other same => ?_, fun other same f n some aligned lower upper free => ?_⟩
  · rw [isAlign]
    exact power
  · rw [cached, usable.cached] at same
    obtain rfl := Option.some.inj same
    rw [isAlign] at aligned
    rw [isStart] at lower
    rw [areas] at free
    exact (cacheOk.usable power usable some aligned lower upper free).trans grows

theorem tryAllocVmapArea_cacheOk (rb : Rebalancing) {result : Option VmapArea} (ok : AreasOk s) (cacheOk : CacheOk s)
    (power : isPowerOf2 a = true) (unit : a ∣ 2 ^ 64) (word : vend < 2 ^ 64) (pos : 0 < size) (start : 0 < vstart)
    (done : tryAllocVmapArea rb s size a vstart vend = .ok (result, s')) : CacheOk s' := by
  rcases tryAllocVmapArea_cases rb ok unit pos start done with
    ⟨-, rfl, -⟩ | ⟨addr, found, -, grown, isCache, isHole, isStart, isAlign⟩
  · by_cases usable : ∃ cache, CacheUsable s size a vstart cache
    · obtain ⟨cache, usable⟩ := usable
      rw [searchAreas_cached usable]
      exact searchCached_cacheOk cacheOk power word usable
    · push Not at usable
      rw [searchAreas_nocache usable]
      exact .empty (searchNocache_state s size a vstart vend).1
  · -- the new area is the cached one
    have older {f n : Nat} (free : Free s'.areaList f n) : Free s.areaList f n :=
      fun va mem => free va ((grown.members va).mpr (.inr mem))
    have below {f n : Nat} (some : 0 < n) (upper : f < addr + size) (free : Free s'.areaList f n) : f < addr := by
      rcases free _ ((grown.members _).mpr (.inl rfl)) with behind | before
      · exact absurd upper (not_lt.mpr behind)
      · change f + n ≤ addr at before
        omega
    by_cases usable : ∃ cache, CacheUsable s size a vstart cache
    · obtain ⟨cache, usable⟩ := usable
      rw [searchAreas_cached usable] at found isHole isStart isAlign
      obtain ⟨-, isStart', isAlign', -, -⟩ := searchCached_state a vstart cache word usable.hole
      refine ⟨fun other _ => ?_, fun other same f n some aligned lower upper free => ?_⟩
      · rw [isAlign, isAlign']
        exact power
      · obtain rfl := Option.some.inj (isCache.symm.trans same)
        rw [isAlign, isAlign'] at aligned
        rw [isStart, isStart'] at lower
        rw [isHole]
        exact searchCached_below word usable.hole
          (fun g m some aligned lower upper free => cacheOk.usable power usable some aligned lower upper free)
          found some aligned lower (below some upper free) (older free)
    · push Not at usable
      rw [searchAreas_nocache usable] at found isHole isStart isAlign
      obtain ⟨-, isStart', isAlign'⟩ := searchNocache_state s size a vstart vend
      refine ⟨fun other _ => ?_, fun other same f n some aligned lower upper free => ?_⟩
      · rw [isAlign, isAlign']
        exact power
      · obtain rfl := Option.some.inj (isCache.symm.trans same)
        rw [isAlign, isAlign'] at aligned
        rw [isStart, isStart'] at lower
        rw [isHole]
        exact searchNocache_below word found some aligned lower (below some upper free) (older free)

end Alloc

/-! ## Freeing -/

section Purge

variable {s s' : Vmap}

/-- An area that goes makes a hole larger, but none below the area that is cached then. -/
theorem freeVmapArea_cacheOk (rb : Rebalancing) {va : VmapArea} (ok : AreasOk s) (cacheOk : CacheOk s)
    (mem : va ∈ s.areaList) (unlisted : va ∉ s.purgeList) (freed : freeVmapArea rb s va = .ok s') : CacheOk s' := by
  obtain ⟨s'', freed', ok', shape, -⟩ := freeVmapArea_ok rb ok mem unlisted
  obtain rfl := Except.ok.inj (freed.symm.trans freed')
  have members (x : VmapArea) : x ∈ s'.areaList ↔ x ≠ va ∧ x ∈ s.areaList := by
    rw [shape, (sorted_nodup ok.nonempty ok.sorted).mem_erase_iff]
  unfold freeVmapArea at freed
  rw [if_pos (by rw [ok.tree]; exact mem)] at freed
  have fields := Except.ok.inj freed
  have isCache : s'.freeCache = freedCache s va := by rw [← fields]
  have isHole : s'.cachedHoleSize = s.cachedHoleSize := by rw [← fields]
  have isStart : s'.cachedVstart = s.cachedVstart := by rw [← fields]
  have isAlign : s'.cachedAlign = s.cachedAlign := by rw [← fields]
  -- a free range below an area below `va` was free with `va` there
  have older {cache : VmapArea} (inList : cache ∈ s'.areaList) (before : cache.vaStart < va.vaStart) {f n : Nat}
      (upper : f < cache.vaEnd) (free : Free s'.areaList f n) : Free s.areaList f n := by
    intro x memX
    by_cases same : x = va
    · right
      rw [same]
      have ends : f + n ≤ cache.vaStart := by
        rcases free cache inList with behind | before
        · exact absurd upper (not_lt.mpr behind)
        · exact before
      exact ends.trans before.le
    · exact free x ((members x).mpr ⟨same, memX⟩)
  rw [freedCache] at isCache
  cases wasCache : s.freeCache with
  | none =>
      rw [wasCache] at isCache
      exact .empty isCache
  | some first =>
      simp only [wasCache] at isCache
      have fromFirst {cache : VmapArea} (inList : cache ∈ s'.areaList) (before : cache.vaStart < va.vaStart)
          (le : cache.vaEnd ≤ first.vaEnd) (cached : s'.freeCache = some cache) : CacheOk s' := by
        refine ⟨fun other _ => ?_, fun other same f n some aligned lower upper free => ?_⟩
        · rw [isAlign]
          exact cacheOk.power first wasCache
        · obtain rfl := Option.some.inj (cached.symm.trans same)
          rw [isHole]
          exact cacheOk.holes first wasCache f n some (isAlign ▸ aligned) (isStart ▸ lower) (upper.trans_le le)
            (older inList before upper free)
      split at isCache
      · exact .empty isCache
      · split at isCache
        · -- the area before `va`
          rename_i reaches
          cases isPrev : prevIn s.root.inorder va with
          | none => exact .empty (isCache.trans isPrev)
          | some prev =>
              obtain ⟨pre, post, split⟩ := List.append_of_mem mem
              obtain ⟨freshPre, freshPost⟩ := not_mem_parts ok.nonempty ok.sorted split
              rw [ok.tree, split, prevIn_append freshPre freshPost] at isPrev
              have inPre := List.mem_of_getLast? isPrev
              have inList : prev ∈ s.areaList := by rw [split]; exact List.mem_append_left _ inPre
              have before := before_of_pre ok.sorted split inPre
              have proper := ok.nonempty prev inList
              have properFirst := ok.nonempty first (ok.cache first wasCache)
              unfold Before at before
              refine fromFirst ((members prev).mpr ⟨fun same => freshPre (same ▸ inPre), inList⟩) (by omega) (by omega) ?_
              rw [isCache, ok.tree, split, prevIn_append freshPre freshPost, isPrev]
        · rename_i later
          exact fromFirst ((members first).mpr ⟨fun same => later (by rw [same]), ok.cache first wasCache⟩)
            (not_le.mp later) le_rfl isCache

theorem purgeAreas_cacheOk (rb : Rebalancing) {waiting : List VmapArea} (ok : AreasOk s) (cacheOk : CacheOk s)
    (nodup : waiting.Nodup) (present : ∀ va ∈ waiting, va ∈ s.areaList) (empty : s.purgeList = [])
    (done : purgeAreas rb waiting s = .ok s') : CacheOk s' := by
  induction waiting generalizing s with
  | nil =>
      obtain rfl := Except.ok.inj done
      exact cacheOk
  | cons va rest ih =>
      obtain ⟨fresh, nodup'⟩ := List.nodup_cons.mp nodup
      have mem := present va List.mem_cons_self
      have unlisted : va ∉ s.purgeList := by
        rw [empty]
        exact List.not_mem_nil
      obtain ⟨mid, freed, midOk, shape, -, listed⟩ := freeVmapArea_ok rb ok mem unlisted
      have midCache := freeVmapArea_cacheOk rb ok cacheOk mem unlisted freed
      simp only [purgeAreas, freed, ok_bind] at done
      apply ih (s := { mid with lazyNr := int32 (mid.lazyNr - nrPages va) }) { midOk with } { midCache with } nodup'
        _ (listed.trans empty) done
      intro x memX
      change x ∈ mid.areaList
      rw [shape, (sorted_nodup ok.nonempty ok.sorted).mem_erase_iff]
      exact ⟨fun same => fresh (same ▸ memX), present x (List.mem_cons_of_mem va memX)⟩

theorem purgeVmapAreaLazy_cacheOk (rb : Rebalancing) (ok : AreasOk s) (cacheOk : CacheOk s)
    (done : purgeVmapAreaLazy rb s = .ok s') : CacheOk s' := by
  have ok' : AreasOk { s with purgeList := [] } :=
    ⟨ok.nonempty, ok.word, ok.sorted, ok.tree, ok.cache, List.nodup_nil, nofun⟩
  exact purgeAreas_cacheOk rb ok' { cacheOk with } ok.purgeNodup (fun va mem => (ok.purge va mem).1) rfl done

theorem removeVmArea_cacheOk (rb : Rebalancing) {lazyMax addr : Nat} {removed : Option VmapArea} (ok : AreasOk s)
    (cacheOk : CacheOk s) (done : removeVmArea rb lazyMax s addr = .ok (removed, s')) : CacheOk s' := by
  unfold removeVmArea at done
  split at done
  · obtain ⟨-, rfl⟩ := Prod.mk.inj (Except.ok.inj done)
    exact cacheOk
  · rename_i va found
    split at done
    · rename_i flag
      obtain ⟨mid, freed, rest⟩ := bind_eq_ok done
      obtain ⟨-, rfl⟩ := Prod.mk.inj (Except.ok.inj rest)
      unfold freeVmapAreaNoflush at freed
      simp only at freed
      split at freed
      · have queued := queued_ok ok (ok.tree ▸ findVmapArea_mem found) flag
        exact purgeVmapAreaLazy_cacheOk rb (s := { s with
          vmFlag := Function.update s.vmFlag va false
          lazyNr := int32 (s.lazyNr + nrPages va)
          purgeList := va :: s.purgeList }) { queued with } { cacheOk with } freed
      · obtain rfl := Except.ok.inj freed
        exact { cacheOk with }
    · obtain ⟨-, rfl⟩ := Prod.mk.inj (Except.ok.inj done)
      exact cacheOk

theorem pcpuFreeVmAreas_cacheOk (rb : Rebalancing) {lazyMax : Nat} {vms : List VmapArea} (ok : AreasOk s)
    (cacheOk : CacheOk s) (freed : pcpuFreeVmAreas rb lazyMax vms s = .ok s') : CacheOk s' := by
  induction vms generalizing s with
  | nil =>
      obtain rfl := Except.ok.inj freed
      exact cacheOk
  | cons vm rest ih =>
      obtain ⟨removed, mid, took, midOk⟩ := @removeVmArea_ok rb lazyMax vm.vaStart s ok
      simp only [pcpuFreeVmAreas, took, ok_bind] at freed
      split at freed
      · cases freed
      · exact ih midOk (removeVmArea_cacheOk rb ok cacheOk took) freed

end Purge

/-! ## Other insertions -/

/-- An insertion writes nothing but the tree and the list, which keeps its areas. -/
theorem insertVmapArea_keeps (rb : Rebalancing) {s s' : Vmap} {va : VmapArea} (done : insertVmapArea rb s va = .ok s') :
    (∀ x ∈ s.areaList, x ∈ s'.areaList) ∧ s'.freeCache = s.freeCache ∧ s'.cachedHoleSize = s.cachedHoleSize ∧
      s'.cachedVstart = s.cachedVstart ∧ s'.cachedAlign = s.cachedAlign := by
  unfold insertVmapArea at done
  split at done
  · exact absurd done nofun
  · obtain rfl := Except.ok.inj done
    refine ⟨fun x mem => ?_, rfl, rfl, rfl, rfl⟩
    simp only
    split
    · exact insertAfter_subset mem
    · exact List.mem_cons_of_mem va mem

theorem insertParts_cacheOk (rb : Rebalancing) {base : Nat} {parts : List Part} {s s' : Vmap} (cacheOk : CacheOk s)
    (done : insertParts rb base parts s = .ok s') : CacheOk s' := by
  induction parts generalizing s with
  | nil =>
      obtain rfl := Except.ok.inj done
      exact cacheOk
  | cons part rest ih =>
      obtain ⟨mid, inserted, rest⟩ := bind_eq_ok done
      obtain ⟨subset, cache, hole, vstart, align⟩ := insertVmapArea_keeps rb inserted
      exact ih (cacheOk.more subset cache hole vstart align) rest

theorem placeParts_cacheOk (rb : Rebalancing) {base : Nat} {parts : List Part} {s s' : Vmap}
    {result : Option (List VmapArea)} (cacheOk : CacheOk s) (done : placeParts rb s parts base = .ok (some (result, s'))) :
    CacheOk s' := by
  obtain ⟨mid, inserted, rest⟩ := bind_eq_ok done
  obtain ⟨-, rfl⟩ := Prod.mk.inj (Option.some.inj (Except.ok.inj rest))
  rw [setup_all_eq]
  exact { insertParts_cacheOk rb cacheOk inserted with }

theorem pcpuGetVmAreas_cacheOk (rb : Rebalancing) {parts : List Part} {s s' : Vmap} {a rounds : Nat} {mem : Bool}
    {result : Option (List VmapArea)} (ok : AreasOk s) (cacheOk : CacheOk s)
    (done : pcpuGetVmAreas rb s parts a mem rounds = .ok (some (result, s'))) : CacheOk s' := by
  unfold pcpuGetVmAreas at done
  simp only at done
  split at done
  · exact absurd done nofun
  · split at done
    · obtain ⟨-, rfl⟩ := Prod.mk.inj (Option.some.inj (Except.ok.inj done))
      exact cacheOk
    · obtain ⟨found, scan, rest⟩ := bind_eq_ok done
      rcases found with _ | _ | base
      · exact absurd (Except.ok.inj rest) nofun
      · obtain ⟨purged, purging, rest⟩ := bind_eq_ok rest
        have purgedCache := purgeVmapAreaLazy_cacheOk rb ok cacheOk purging
        obtain ⟨found, scan', rest⟩ := bind_eq_ok rest
        rcases found with _ | _ | base
        · exact absurd (Except.ok.inj rest) nofun
        · obtain ⟨-, rfl⟩ := Prod.mk.inj (Option.some.inj (Except.ok.inj rest))
          exact purgedCache
        · exact placeParts_cacheOk rb purgedCache rest
      · exact placeParts_cacheOk rb cacheOk rest

theorem importEarly_freeCache (rb : Rebalancing) {vmlist : List VmapArea} {s s' : Vmap}
    (done : importEarly rb vmlist s = .ok s') : s'.freeCache = s.freeCache := by
  induction vmlist generalizing s with
  | nil =>
      obtain rfl := Except.ok.inj done
      rfl
  | cons tmp rest ih =>
      obtain ⟨mid, inserted, rest⟩ := bind_eq_ok done
      obtain ⟨-, cache, -⟩ := insertVmapArea_keeps rb inserted
      exact (ih rest).trans cache

/-! ## Runs -/

theorem allocVmapArea_cacheOk (rb : Rebalancing) {s s' : Vmap} {size a vstart vend : Nat} {mem : Bool}
    {result : Except Errno VmapArea} (ok : AreasOk s) (cacheOk : CacheOk s) (word : a < 2 ^ 64) (start : 0 < vstart)
    (stop : vend < 2 ^ 64) (done : allocVmapArea rb s size a vstart vend mem = .ok (result, s')) : CacheOk s' := by
  unfold allocVmapArea at done
  split at done
  · exact absurd done nofun
  · rename_i valid
    push Not at valid
    obtain ⟨nonzero, -, notFalse⟩ := valid
    have power := Bool.eq_true_of_not_eq_false notFalse
    have unit := isPowerOf2_dvd power word
    have pos := Nat.pos_of_ne_zero nonzero
    split at done
    · obtain ⟨rfl, rfl⟩ := Prod.mk.inj (Except.ok.inj done)
      exact cacheOk
    · obtain ⟨⟨first, mid⟩, tried, rest⟩ := bind_eq_ok done
      obtain ⟨midOk, -⟩ := tryAllocVmapArea_ok rb ok unit pos start tried
      have midCache := tryAllocVmapArea_cacheOk rb ok cacheOk power unit stop pos start tried
      cases first with
      | some va =>
          obtain ⟨rfl, rfl⟩ := Prod.mk.inj (Except.ok.inj rest)
          exact midCache
      | none =>
          obtain ⟨purged, purging, rest⟩ := bind_eq_ok rest
          have purgedOk := (purgeVmapAreaLazy_settled rb midOk purging).1
          have purgedCache := purgeVmapAreaLazy_cacheOk rb midOk midCache purging
          obtain ⟨⟨second, last⟩, tried', rest⟩ := bind_eq_ok rest
          have lastCache := tryAllocVmapArea_cacheOk rb purgedOk purgedCache power unit stop pos start tried'
          cases second with
          | some va =>
              obtain ⟨rfl, rfl⟩ := Prod.mk.inj (Except.ok.inj rest)
              exact lastCache
          | none =>
              obtain ⟨rfl, rfl⟩ := Prod.mk.inj (Except.ok.inj rest)
              exact lastCache

theorem vmallocEnd_word {vend : Nat} (upper : vend ≤ vmallocEnd) : vend < 2 ^ 64 := upper.trans_lt (by decide)

theorem Step.cacheOk {rb : Rebalancing} {lazyMax : Nat} {s s' : Vmap} (ok : AreasOk s) (cacheOk : CacheOk s)
    (step : Step rb lazyMax s s') : CacheOk s' := by
  cases step with
  | alloc word lower upper done =>
      exact allocVmapArea_cacheOk rb ok cacheOk word (vmallocStart_pos.trans_le lower) (vmallocEnd_word upper) done
  | allocSetup word lower upper done =>
      have allocated :=
        allocVmapArea_cacheOk rb ok cacheOk word (vmallocStart_pos.trans_le lower) (vmallocEnd_word upper) done
      exact { allocated with }
  | remove done => exact removeVmArea_cacheOk rb ok cacheOk done
  | purge done => exact purgeVmapAreaLazy_cacheOk rb ok cacheOk done
  | pcpuGet word some_parts sizes stops done => exact pcpuGetVmAreas_cacheOk rb ok cacheOk done
  | pcpuFree done => exact pcpuFreeVmAreas_cacheOk rb ok cacheOk done

theorem Reachable.cacheOk {rb : Rebalancing} {lazyMax : Nat} {s : Vmap} (reach : Reachable rb lazyMax s) : CacheOk s := by
  induction reach with
  | init run done =>
      obtain ⟨mid, imported, rest⟩ := bind_eq_ok done
      obtain rfl := Except.ok.inj rest
      exact .empty (importEarly_freeCache rb imported)
  | step run step ih => exact step.cacheOk run.ok ih

end Miracle.Vmalloc
