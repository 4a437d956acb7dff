import Miracle.Vmalloc.HoleCache

/-! # When an allocation fails though there is room

A request that fits no hole larger than `cached_hole_size` may still fit one that is exactly
as large: the search is begun anew for a smaller size only.  When what is left above the
cached area is too small, such a request fails.
-/

namespace Miracle.Vmalloc

open SearchTree

/-! ## The cache after a purge -/

/-- The last area that stays, at or below the cached one and below all waiting areas there. -/
structure LastBelow (l waiting : List VmapArea) (first cache : VmapArea) : Prop where
  mem : cache ∈ l
  stays : cache ∉ waiting
  start : cache.vaStart ≤ first.vaStart
  below : ∀ w ∈ waiting, w.vaStart ≤ first.vaStart → cache.vaStart < w.vaStart
  last : ∀ va ∈ l, va ∉ waiting → va.vaStart ≤ first.vaStart →
    (∀ w ∈ waiting, w.vaStart ≤ first.vaStart → va.vaStart < w.vaStart) → va.vaStart ≤ cache.vaStart

theorem AreasOk.eq_of_start {s : Vmap} (ok : AreasOk s) {x y : VmapArea} (memX : x ∈ s.areaList) (memY : y ∈ s.areaList)
    (same : x.vaStart = y.vaStart) : x = y := by
  by_contra different
  have symm : Std.Symm fun x y : VmapArea => Before x y ∨ Before y x := ⟨fun _ _ h => h.symm⟩
  have properX := ok.nonempty x memX
  have properY := ok.nonempty y memY
  rcases (ok.sorted.imp (S := fun x y => Before x y ∨ Before y x) .inl).forall memX memY different with h | h <;>
    (unfold Before at h; omega)

/-- The area before another one, if there is one. -/
theorem AreasOk.prev_iff {s : Vmap} (ok : AreasOk s) {va prev : VmapArea} (mem : va ∈ s.areaList) :
    prevIn s.root.inorder va = some prev ↔ prev ∈ s.areaList ∧ prev.vaStart < va.vaStart ∧
      ∀ x ∈ s.areaList, x.vaStart < va.vaStart → x.vaStart ≤ prev.vaStart := by
  obtain ⟨pre, post, shape⟩ := List.append_of_mem mem
  obtain ⟨freshPre, freshPost⟩ := not_mem_parts ok.nonempty ok.sorted shape
  rw [ok.tree, shape, prevIn_append freshPre freshPost, ← shape]
  have lower {x : VmapArea} (inList : x ∈ s.areaList) (before : x.vaStart < va.vaStart) : x ∈ pre := by
    rw [shape] at inList
    rcases List.mem_append.mp inList with inPre | after
    · exact inPre
    · rcases List.mem_cons.mp after with rfl | inPost
      · exact absurd before (lt_irrefl _)
      · have later := before_of_post ok.sorted shape inPost
        have proper := ok.nonempty va mem
        unfold Before at later
        omega
  have isBefore {x : VmapArea} (inPre : x ∈ pre) : x ∈ s.areaList ∧ x.vaStart < va.vaStart := by
    have inList : x ∈ s.areaList := by rw [shape]; exact List.mem_append_left _ inPre
    have before := before_of_pre ok.sorted shape inPre
    have proper := ok.nonempty x inList
    unfold Before at before
    exact ⟨inList, by omega⟩
  have greatest {front : List VmapArea} {p : VmapArea} (isPre : pre = front ++ [p]) {x : VmapArea} (inPre : x ∈ pre) :
      x.vaStart ≤ p.vaStart := by
    rw [isPre] at inPre
    rcases List.mem_append.mp inPre with inFront | isLast
    · have shape' : s.areaList = front ++ p :: va :: post := by rw [shape, isPre]; simp
      have before := before_of_pre ok.sorted shape' inFront
      have proper := ok.nonempty x (isBefore (isPre ▸ List.mem_append_left _ inFront)).1
      unfold Before at before
      omega
    · rw [List.mem_singleton.mp isLast]
  constructor
  · intro isLast
    obtain ⟨front, isPre⟩ := List.getLast?_eq_some_iff.mp isLast
    have inPre := List.mem_of_getLast? isLast
    exact ⟨(isBefore inPre).1, (isBefore inPre).2, fun x inList before => greatest isPre (lower inList before)⟩
  · rintro ⟨inList, before, last⟩
    have inPre := lower inList before
    obtain ⟨front, p, isPre⟩ := (List.eq_nil_or_concat pre).resolve_left (List.ne_nil_of_mem inPre)
    rw [List.concat_eq_append] at isPre
    have memP : p ∈ pre := by rw [isPre]; simp
    have same : p = prev := by
      apply ok.eq_of_start (isBefore memP).1 inList
      exact le_antisymm (last p (isBefore memP).1 (isBefore memP).2) (greatest isPre inPre)
    rw [isPre, same]
    simp

/-- What is cached after one area was freed, when there was something cached before. -/
theorem freeVmapArea_cache (rb : Rebalancing) {s s' : Vmap} {va : VmapArea} (ok : AreasOk s) (mem : va ∈ s.areaList)
    (freed : freeVmapArea rb s va = .ok s') :
    s'.freeCache = freedCache s va ∧ s'.cachedHoleSize = s.cachedHoleSize ∧ s'.cachedVstart = s.cachedVstart ∧
      s'.cachedAlign = s.cachedAlign := by
  unfold freeVmapArea at freed
  rw [if_pos (by rw [ok.tree]; exact mem)] at freed
  rw [← Except.ok.inj freed]
  exact ⟨rfl, rfl, rfl, rfl⟩

theorem purgeAreas_cache (rb : Rebalancing) {waiting : List VmapArea} {s s' : Vmap} (ok : AreasOk s)
    (nodup : waiting.Nodup) (present : ∀ va ∈ waiting, va ∈ s.areaList) (empty : s.purgeList = [])
    (done : purgeAreas rb waiting s = .ok s') :
    s'.cachedHoleSize = s.cachedHoleSize ∧ s'.cachedVstart = s.cachedVstart ∧ s'.cachedAlign = s.cachedAlign ∧
      ∀ cache, s'.freeCache = some cache ↔ ∃ first, s.freeCache = some first ∧
        (∀ w ∈ waiting, s.cachedVstart ≤ w.vaEnd) ∧ LastBelow s.areaList waiting first cache := by
  induction waiting generalizing s with
  | nil =>
      obtain rfl := Except.ok.inj done
      refine ⟨rfl, rfl, rfl, fun cache => ?_⟩
      constructor
      · intro cached
        exact ⟨cache, cached, fun w mem => absurd mem List.not_mem_nil, ok.cache cache cached, List.not_mem_nil, le_rfl,
          fun w mem => absurd mem List.not_mem_nil, fun _ _ _ le _ => le⟩
      · rintro ⟨first, cached, -, last⟩
        have inList := ok.cache first cached
        have le := last.last first inList List.not_mem_nil le_rfl fun w mem => absurd mem List.not_mem_nil
        rw [cached, ok.eq_of_start inList last.mem (le_antisymm le last.start)]
  | cons va rest ih =>
      obtain ⟨fresh, nodup'⟩ := List.nodup_cons.mp nodup
      have mem := present va List.mem_cons_self
      have unlisted : va ∉ s.purgeList := by
        rw [empty]
        exact List.not_mem_nil
      obtain ⟨mid, freed, midOk, shape, -, listed⟩ := freeVmapArea_ok rb ok mem unlisted
      obtain ⟨isCache, isHole, isStart, isAlign⟩ := freeVmapArea_cache rb ok mem freed
      simp only [purgeAreas, freed, ok_bind] at done
      have members (x : VmapArea) : x ∈ mid.areaList ↔ x ≠ va ∧ x ∈ s.areaList := by
        rw [shape, (sorted_nodup ok.nonempty ok.sorted).mem_erase_iff]
      have present' : ∀ x ∈ rest, x ∈ mid.areaList := by
        intro x memX
        rw [members]
        exact ⟨fun same => fresh (same ▸ memX), present x (List.mem_cons_of_mem va memX)⟩
      obtain ⟨isHole', isStart', isAlign', caches⟩ := ih (s := { mid with lazyNr := int32 (mid.lazyNr - nrPages va) })
        { midOk with } nodup' present' (listed.trans empty) done
      refine ⟨isHole'.trans isHole, isStart'.trans isStart, isAlign'.trans isAlign, fun cache => ?_⟩
      rw [caches]
      change (∃ first, mid.freeCache = some first ∧ (∀ w ∈ rest, mid.cachedVstart ≤ w.vaEnd) ∧
        LastBelow mid.areaList rest first cache) ↔ _
      rw [isStart, isCache, freedCache]
      cases wasCache : s.freeCache with
      | none =>
          constructor <;> rintro ⟨first, cached, -⟩
          · cases cached
          · cases cached
      | some first =>
          simp only [Option.some.injEq, exists_eq_left']
          split
          · -- the area ends below the start of the requests: nothing is cached any more
            rename_i low
            constructor
            · rintro ⟨other, cached, -⟩
              cases cached
            · rintro ⟨above, -⟩
              exact absurd (above va List.mem_cons_self) (not_le.mpr low)
          · rename_i high
            have above : (∀ w ∈ va :: rest, s.cachedVstart ≤ w.vaEnd) ↔ ∀ w ∈ rest, s.cachedVstart ≤ w.vaEnd := by
              simp only [List.mem_cons, forall_eq_or_imp, not_lt.mp high, true_and]
            rw [above]
            split
            · -- the cache moves below the area
              rename_i reaches
              constructor
              · rintro ⟨prev, isPrev, ends, last⟩
                obtain ⟨memPrev, before, greatest⟩ := (ok.prev_iff mem).mp isPrev
                have start := last.start
                refine ⟨ends, ((members cache).mp last.mem).2, ?_, by omega, fun w memW le => ?_,
                  fun x memX stays le under => ?_⟩
                · rw [List.mem_cons, not_or]
                  exact ⟨((members cache).mp last.mem).1, last.stays⟩
                · rcases List.mem_cons.mp memW with rfl | memW
                  · omega
                  · by_cases under : w.vaStart ≤ prev.vaStart
                    · exact last.below w memW under
                    · omega
                · have before' := under va List.mem_cons_self reaches
                  rw [List.mem_cons, not_or] at stays
                  exact last.last x ((members x).mpr ⟨stays.1, memX⟩) stays.2 (greatest x memX before')
                    fun w memW le' => under w (List.mem_cons_of_mem va memW) (by omega)
              · rintro ⟨ends, last⟩
                have before := last.below va List.mem_cons_self reaches
                have stays := last.stays
                rw [List.mem_cons, not_or] at stays
                obtain ⟨prev, isPrev⟩ : ∃ prev, prevIn s.root.inorder va = some prev := by
                  obtain ⟨pre, post, split⟩ := List.append_of_mem mem
                  obtain ⟨freshPre, freshPost⟩ := not_mem_parts ok.nonempty ok.sorted split
                  rw [ok.tree, split, prevIn_append freshPre freshPost, ← Option.isSome_iff_exists, Option.isSome_iff_ne_none]
                  intro none
                  obtain rfl := List.getLast?_eq_none_iff.mp none
                  have memCache := last.mem
                  rw [split, List.nil_append] at memCache
                  rcases List.mem_cons.mp memCache with same | inPost
                  · exact stays.1 same
                  · have later := before_of_post ok.sorted split inPost
                    have proper := ok.nonempty va mem
                    unfold Before at later
                    omega
                obtain ⟨memPrev, beforePrev, greatest⟩ := (ok.prev_iff mem).mp isPrev
                refine ⟨prev, isPrev, ends, (members cache).mpr ⟨stays.1, last.mem⟩, stays.2,
                  greatest cache last.mem before, fun w memW le => ?_, fun x memX stays' le under => ?_⟩
                · exact last.below w (List.mem_cons_of_mem va memW) (by omega)
                · obtain ⟨other, inList⟩ := (members x).mp memX
                  apply last.last x inList (by rw [List.mem_cons, not_or]; exact ⟨other, stays'⟩) (by omega)
                  intro w memW le'
                  rcases List.mem_cons.mp memW with rfl | memW
                  · omega
                  · by_cases small : w.vaStart ≤ prev.vaStart
                    · exact under w memW small
                    · omega
            · -- the area lies above the cache, which stays
              rename_i later
              simp only [Option.some.injEq, exists_eq_left']
              refine and_congr_right fun _ => ⟨fun last => ?_, fun last => ?_⟩
              · have start := last.start
                refine ⟨((members cache).mp last.mem).2, ?_, start, fun w memW le => ?_, fun x memX stays le under => ?_⟩
                · rw [List.mem_cons, not_or]
                  exact ⟨((members cache).mp last.mem).1, last.stays⟩
                · rcases List.mem_cons.mp memW with rfl | memW
                  · omega
                  · exact last.below w memW le
                · rw [List.mem_cons, not_or] at stays
                  exact last.last x ((members x).mpr ⟨stays.1, memX⟩) stays.2 le
                    fun w memW le' => under w (List.mem_cons_of_mem va memW) le'
              · have stays := last.stays
                rw [List.mem_cons, not_or] at stays
                refine ⟨(members cache).mpr ⟨stays.1, last.mem⟩, stays.2, last.start,
                  fun w memW le => last.below w (List.mem_cons_of_mem va memW) le, fun x memX stays' le under => ?_⟩
                obtain ⟨other, inList⟩ := (members x).mp memX
                apply last.last x inList (by rw [List.mem_cons, not_or]; exact ⟨other, stays'⟩) le
                intro w memW le'
                rcases List.mem_cons.mp memW with rfl | memW
                · omega
                · exact under w memW le'

/-! ## Requests -/

/-- The areas that do not wait to be purged. -/
def remaining (s : Vmap) : List VmapArea := s.areaList.filter fun va => va ∉ s.purgeList

/-- An aligned place in the window that no area overlaps. -/
structure Fits (l : List VmapArea) (size a vstart vend f : Nat) : Prop where
  aligned : a ∣ f
  lower : vstart ≤ f
  upper : f + size ≤ vend
  free : Free l f size

/-- A request that is refused had no place, even with all waiting areas purged. -/
def AllocComplete (rb : Rebalancing) (s : Vmap) (size a vstart vend : Nat) : Prop :=
  ∀ s', allocVmapArea rb s size a vstart vend true = .ok (.error .ebusy, s') →
    ∀ f, ¬Fits (remaining s) size a vstart vend f

/-- The cache hides the place: it may be used for the request, also after the purge, and the
    largest hole below it is exactly as large as the request, which fits nowhere else. -/
def HidesHole (s : Vmap) (size a vstart vend : Nat) : Prop :=
  ∃ first cache, CacheUsable s size a vstart first ∧ s.cachedHoleSize = size ∧
    (∀ w ∈ s.purgeList, vstart ≤ w.vaEnd) ∧ LastBelow s.areaList s.purgeList first cache ∧
    vstart ≤ alignUp cache.vaEnd a ∧ (∃ f, Fits (remaining s) size a vstart vend f) ∧
    ∀ f, Fits (remaining s) size a vstart vend f → f < cache.vaStart

section Request

variable {s s' : Vmap} {size a vstart vend : Nat}

theorem Fits.subset {l l' : List VmapArea} {f : Nat} (fits : Fits l size a vstart vend f) (subset : ∀ va ∈ l', va ∈ l) :
    Fits l' size a vstart vend f :=
  ⟨fits.aligned, fits.lower, fits.upper, fun va mem => fits.free va (subset va mem)⟩

/-- A refusal: a pass fails, what waits is purged, and a second pass fails. -/
theorem allocVmapArea_ebusy (rb : Rebalancing) (done : allocVmapArea rb s size a vstart vend true = .ok (.error .ebusy, s')) :
    ∃ mid purged, tryAllocVmapArea rb s size a vstart vend = .ok (none, mid) ∧ purgeVmapAreaLazy rb mid = .ok purged ∧
      tryAllocVmapArea rb purged size a vstart vend = .ok (none, s') := by
  unfold allocVmapArea at done
  split at done
  · exact absurd done nofun
  · simp only [Bool.true_eq_false, if_false] at done
    obtain ⟨⟨first, mid⟩, tried, rest⟩ := bind_eq_ok done
    cases first with
    | some va => exact absurd (Prod.mk.inj (Except.ok.inj rest)).1 nofun
    | none =>
        obtain ⟨purged, purging, rest⟩ := bind_eq_ok rest
        obtain ⟨⟨second, last⟩, tried', rest⟩ := bind_eq_ok rest
        cases second with
        | some va => exact absurd (Prod.mk.inj (Except.ok.inj rest)).1 nofun
        | none =>
            obtain ⟨-, rfl⟩ := Prod.mk.inj (Except.ok.inj rest)
            exact ⟨mid, purged, tried, purging, tried'⟩

/-- What a purge leaves of the areas, and what is cached then. -/
theorem purge_after_search (rb : Rebalancing) {mid purged : Vmap} (ok : AreasOk s) (same : SameAreas s mid)
    (purging : purgeVmapAreaLazy rb mid = .ok purged) :
    AreasOk purged ∧ (∀ va, va ∈ purged.areaList ↔ va ∈ remaining s) ∧ purged.cachedHoleSize = mid.cachedHoleSize ∧
      purged.cachedVstart = mid.cachedVstart ∧ purged.cachedAlign = mid.cachedAlign ∧
      ∀ cache, purged.freeCache = some cache ↔ ∃ first, mid.freeCache = some first ∧
        (∀ w ∈ s.purgeList, mid.cachedVstart ≤ w.vaEnd) ∧ LastBelow s.areaList s.purgeList first cache := by
  have midOk := same.ok ok
  have ok' : AreasOk { mid with purgeList := [] } :=
    ⟨midOk.nonempty, midOk.word, midOk.sorted, midOk.tree, midOk.cache, List.nodup_nil, nofun⟩
  obtain ⟨isHole, isStart, isAlign, caches⟩ :=
    purgeAreas_cache rb ok' midOk.purgeNodup (fun va mem => (midOk.purge va mem).1) rfl purging
  refine ⟨(purgeVmapAreaLazy_settled rb midOk purging).1, fun va => ?_, isHole, isStart, isAlign, ?_⟩
  · rw [purgeVmapAreaLazy_mem rb midOk purging, same.areaList, same.purgeList]
    simp [remaining]
  · simp only [same.areaList, same.purgeList] at caches
    exact caches

/-- A pass that may not use the cache fails only where there is no place. -/
theorem tryAllocVmapArea_nocache (rb : Rebalancing) (ok : AreasOk s) (unit : a ∣ 2 ^ 64) (pos : 0 < size) (start : 0 < vstart)
    (word : vend < 2 ^ 64) (unusable : ∀ cache, ¬CacheUsable s size a vstart cache)
    (failed : tryAllocVmapArea rb s size a vstart vend = .ok (none, s')) (f : Nat) : ¬Fits s.areaList size a vstart vend f := by
  rcases tryAllocVmapArea_cases rb ok unit pos start failed with ⟨-, -, beyond⟩ | ⟨addr, -, some, -⟩
  · rw [searchAreas_nocache unusable] at beyond
    exact fun fits => searchNocache_fails word beyond fits.aligned fits.lower fits.upper fits.free
  · exact absurd some nofun

/-- A pass that uses the cache fails only where all places lie below the cached area. -/
theorem tryAllocVmapArea_cached (rb : Rebalancing) (ok : AreasOk s) (unit : a ∣ 2 ^ 64) (pos : 0 < size) (start : 0 < vstart)
    (word : vend < 2 ^ 64) {cache : VmapArea} (usable : CacheUsable s size a vstart cache)
    (failed : tryAllocVmapArea rb s size a vstart vend = .ok (none, s')) {f : Nat} (fits : Fits s.areaList size a vstart vend f) :
    f < cache.vaStart := by
  have mem := ok.cache cache usable.cached
  rcases tryAllocVmapArea_cases rb ok unit pos start failed with ⟨-, -, beyond⟩ | ⟨addr, -, some, -⟩
  · rw [searchAreas_cached usable] at beyond
    by_contra above
    have behind : cache.vaEnd ≤ f := by
      rcases fits.free cache mem with low | high
      · exact low
      · change f + size ≤ cache.vaStart at high
        omega
    exact searchCached_fails word beyond fits.aligned behind fits.upper fits.free
  · exact absurd some nofun

theorem hidesHole_of_incomplete (rb : Rebalancing) (ok : AreasOk s) (cacheOk : CacheOk s) (power : isPowerOf2 a = true)
    (unit : a ∣ 2 ^ 64) (pos : 0 < size) (start : 0 < vstart) (word : vend < 2 ^ 64)
    (done : allocVmapArea rb s size a vstart vend true = .ok (.error .ebusy, s')) {f : Nat}
    (fits : Fits (remaining s) size a vstart vend f) : HidesHole s size a vstart vend := by
  obtain ⟨mid, purged, failed, purging, failed'⟩ := allocVmapArea_ebusy rb done
  have same := (tryAllocVmapArea_frame rb ok unit pos start failed).1 rfl
  obtain ⟨purgedOk, areas, isHole, isStart, isAlign, caches⟩ := purge_after_search rb ok same purging
  have midCache := tryAllocVmapArea_cacheOk rb ok cacheOk power unit word pos start failed
  have purgedCache := purgeVmapAreaLazy_cacheOk rb (same.ok ok) midCache purging
  have fits' : Fits purged.areaList size a vstart vend f := fits.subset fun va mem => (areas va).mp mem
  have usable' : ∃ cache, CacheUsable purged size a vstart cache := by
    by_contra unusable
    push Not at unusable
    exact tryAllocVmapArea_nocache rb purgedOk unit pos start word unusable failed' f fits'
  obtain ⟨cache, usable'⟩ := usable'
  obtain ⟨first, cached, above, last⟩ := (caches cache).mp usable'.cached
  -- the first pass has used the cache, else nothing would be cached now
  have usable : ∃ first, CacheUsable s size a vstart first := by
    by_contra unusable
    push Not at unusable
    rcases tryAllocVmapArea_cases rb ok unit pos start failed with ⟨-, rfl, -⟩ | ⟨addr, -, some, -⟩
    · rw [searchAreas_nocache unusable, (searchNocache_state s size a vstart vend).1] at cached
      exact absurd cached nofun
    · exact absurd some nofun
  obtain ⟨first', usable⟩ := usable
  rcases tryAllocVmapArea_cases rb ok unit pos start failed with ⟨-, rfl, -⟩ | ⟨addr, -, some, -⟩
  · rw [searchAreas_cached usable] at cached above isHole isStart
    obtain ⟨isCache, midStart, -, grows, sameHole⟩ := searchCached_state a vstart first' word usable.hole
    rw [isCache, usable.cached] at cached
    obtain rfl := Option.some.inj cached
    rw [midStart] at above
    have all : ∀ g, Fits (remaining s) size a vstart vend g → g < cache.vaStart := fun g fitsG =>
      tryAllocVmapArea_cached rb purgedOk unit pos start word usable' failed' (fitsG.subset fun va mem => (areas va).mp mem)
    -- the place is in a hole below the cache, so no larger than what is remembered
    have below := all f fits
    have proper := purgedOk.nonempty cache (purgedOk.cache cache usable'.cached)
    have known := purgedCache.usable power usable' pos fits'.aligned fits'.lower (by omega) fits'.free
    rw [isHole] at known
    have hole := usable.hole
    exact ⟨first', cache, usable, by omega, above, last, usable'.start, ⟨f, fits⟩, all⟩
  · exact absurd some nofun

/-- Where all places lie below the cached area, a pass from there fails. -/
theorem tryAllocVmapArea_hidden (rb : Rebalancing) (ok : AreasOk s) (unit : a ∣ 2 ^ 64) (lower : vmallocStart ≤ vstart)
    (upper : ∀ va ∈ s.areaList, va.vaEnd ≤ vmallocEnd) {cache : VmapArea} (usable : CacheUsable s size a vstart cache) {g : Nat}
    (aligned : a ∣ g) (inside : vstart ≤ g) (under : g < cache.vaStart)
    (hidden : ∀ f, Fits s.areaList size a vstart vend f → f < cache.vaStart) :
    tryAllocVmapArea rb s size a vstart vend = .ok (none, (searchCached s size a vstart vend cache).2) := by
  have startValue : vmallocStart + 2 ^ 48 = 2 ^ 64 := by decide
  have endValue : vmallocEnd + 2 ^ 47 ≤ 2 ^ 64 := by decide
  have mem := ok.cache cache usable.cached
  have proper := ok.nonempty cache mem
  have start := usable.start
  -- two multiples of the alignment above the start of the range
  have small : a ≤ 2 ^ 47 := by
    have up := (alignUp_ge unit (ok.word cache mem).le).resolve_left (by omega)
    have wordUp : alignUp cache.vaEnd a < 2 ^ 64 := u64_lt _
    obtain ⟨n, total⟩ := unit
    obtain ⟨i, isG⟩ := aligned
    obtain ⟨j, isUp⟩ := alignUp_dvd (Dvd.intro n total.symm) cache.vaEnd
    have first : i < j := Nat.lt_of_mul_lt_mul_left (a := a) (by omega)
    have second : j < n := Nat.lt_of_mul_lt_mul_left (a := a) (by omega)
    have gap : a * i + 2 * a ≤ a * n := by
      calc a * i + 2 * a = a * (i + 2) := by ring
        _ ≤ a * n := Nat.mul_le_mul_left a (by omega)
    omega
  -- so rounding does not overflow
  have rounds {va : VmapArea} (inSuffix : va ∈ suffixFrom cache s.areaList) :
      alignUp va.vaEnd a ≠ 0 ∧ cache.vaEnd ≤ alignUp va.vaEnd a ∧ vstart ≤ alignUp va.vaEnd a := by
    have inList := suffixFrom_subset cache s.areaList va inSuffix
    have bound := upper va inList
    have nonzero := alignUp_pos unit (x := va.vaEnd) (by omega) (lt_of_le_of_lt (Nat.zero_le _) (ok.nonempty va inList))
    have up := (alignUp_ge unit (ok.word va inList).le).resolve_left nonzero
    have later : cache.vaEnd ≤ va.vaEnd := by
      obtain ⟨pre, post, shape⟩ := List.append_of_mem mem
      obtain ⟨freshPre, -⟩ := not_mem_parts ok.nonempty ok.sorted shape
      rw [shape, suffixFrom_append freshPre] at inSuffix
      rcases List.mem_cons.mp inSuffix with rfl | inPost
      · exact le_rfl
      · have before := before_of_post ok.sorted shape inPost
        have properVa := ok.nonempty va inList
        unfold Before at before
        omega
    exact ⟨nonzero, later.trans up, start.trans (alignUp_le (alignUp_dvd unit _) (later.trans up))⟩
  have inOwn : cache ∈ suffixFrom cache s.areaList := by
    obtain ⟨pre, post, shape⟩ := List.append_of_mem mem
    obtain ⟨freshPre, -⟩ := not_mem_parts ok.nonempty ok.sorted shape
    rw [shape, suffixFrom_append freshPre]
    exact List.mem_cons_self
  obtain ⟨-, room⟩ := @searchAreas_room s size a vstart vend ok unit
  unfold tryAllocVmapArea
  rw [searchAreas_cached usable] at room ⊢
  split
  · rename_i mid searched
    rw [searched]
  · rename_i addr mid searched
    rw [searched] at room
    rw [searched]
    rw [if_pos]
    by_contra below
    obtain ⟨-, clear⟩ := room addr rfl
    have place : ∃ va ∈ suffixFrom cache s.areaList, addr = alignUp va.vaEnd a := by
      have result : (searchCached s size a vstart vend cache).1 = some addr := by rw [searched]
      rcases searchCached_found result with same | found
      · exact ⟨cache, inOwn, same⟩
      · exact found
    obtain ⟨va, inSuffix, rfl⟩ := place
    obtain ⟨nonzero, behind, above⟩ := rounds inSuffix
    have fits := hidden _ ⟨alignUp_dvd unit _, above, not_lt.mp below, (clear (not_lt.mp below)).resolve_left nonzero⟩
    omega

theorem incomplete_of_hidesHole (rb : Rebalancing) (ok : AreasOk s) (page : size % pageSize = 0) (power : isPowerOf2 a = true)
    (unit : a ∣ 2 ^ 64) (pos : 0 < size) (lower : vmallocStart ≤ vstart) (word : vend < 2 ^ 64)
    (upper : ∀ va ∈ s.areaList, va.vaEnd ≤ vmallocEnd) (hides : HidesHole s size a vstart vend) :
    ¬AllocComplete rb s size a vstart vend := by
  obtain ⟨first, cache, usable, isSize, above, last, startCache, ⟨f, fits⟩, all⟩ := hides
  have areasOf {g : Nat} (fitsG : Fits s.areaList size a vstart vend g) : Fits (remaining s) size a vstart vend g :=
    fitsG.subset fun va mem => List.mem_of_mem_filter mem
  have start := vmallocStart_pos.trans_le lower
  have under := all f fits
  have failed := tryAllocVmapArea_hidden rb ok unit lower upper usable fits.aligned fits.lower
    (lt_of_lt_of_le under last.start) fun g fitsG => lt_of_lt_of_le (all g (areasOf fitsG)) last.start
  have same := (tryAllocVmapArea_frame rb ok unit pos start failed).1 rfl
  obtain ⟨isCache, midStart, midAlign, grows, sameHole⟩ := searchCached_state a vstart first word usable.hole
  obtain ⟨purged, purging, -⟩ := purgeVmapAreaLazy_ok rb (same.ok ok)
  obtain ⟨purgedOk, areas, isHole, isStart, isAlign, caches⟩ := purge_after_search rb ok same purging
  have usable' : CacheUsable purged size a vstart cache := by
    refine ⟨(caches cache).mpr ⟨first, isCache.trans usable.cached, ?_, last⟩, by omega, by omega, by omega, startCache⟩
    rw [midStart]
    exact above
  have failed' := tryAllocVmapArea_hidden rb purgedOk unit lower
    (fun va mem => upper va (List.mem_of_mem_filter ((areas va).mp mem))) usable' fits.aligned fits.lower under
    fun g fitsG => all g (fitsG.subset fun va mem => (areas va).mpr mem)
  intro complete
  refine complete (searchCached purged size a vstart vend cache).2 ?_ f fits
  unfold allocVmapArea
  rw [if_neg (by rw [power]; simp [page, pos.ne'])]
  simp only [Bool.true_eq_false, if_false, failed, ok_bind, purging, failed']

/-- A refused request had no place, unless the cache hid one; and where all areas end in the
    vmalloc range it then always does. -/
theorem alloc_complete_iff (rb : Rebalancing) (lazyMax : Nat) (reach : Reachable rb lazyMax s) (pos : 0 < size)
    (page : size % pageSize = 0) (power : isPowerOf2 a = true) (small : a < 2 ^ 64) (lower : vmallocStart ≤ vstart)
    (upper : vend ≤ vmallocEnd) :
    (¬HidesHole s size a vstart vend → AllocComplete rb s size a vstart vend) ∧
      ((∀ va ∈ s.areaList, va.vaEnd ≤ vmallocEnd) →
        (AllocComplete rb s size a vstart vend ↔ ¬HidesHole s size a vstart vend)) := by
  have unit := isPowerOf2_dvd power small
  have word := vmallocEnd_word upper
  have complete : ¬HidesHole s size a vstart vend → AllocComplete rb s size a vstart vend := by
    intro visible s' done f fits
    exact visible (hidesHole_of_incomplete rb reach.ok reach.cacheOk power unit pos (vmallocStart_pos.trans_le lower) word
      done fits)
  refine ⟨complete, fun inRange => ⟨fun holds hides => ?_, complete⟩⟩
  exact incomplete_of_hidesHole rb reach.ok page power unit pos lower word inRange hides holds

end Request

/-- The end of a window of five pages. -/
def windowEnd : Nat := vmallocStart + 20480

/-- A page where nothing is mapped. -/
theorem first_page_complete : AllocComplete plain initialVmap 4096 1 vmallocStart windowEnd ↔
    ¬HidesHole initialVmap 4096 1 vmallocStart windowEnd :=
  (alloc_complete_iff plain 8192 (.init .start rfl) (by decide) (by decide) (by decide) (by decide) le_rfl (by decide)).2
    nofun

/-- Three pages are allocated, the first of them is freed and purged, and two pages are
    allocated behind; then a page is refused though the first one is free. -/
theorem first_page_hidden : ∃ s, Reachable plain 8192 s ∧ s.purgeList = [] ∧
    (∃ s', allocVmapArea plain s 4096 1 vmallocStart windowEnd true = .ok (.error .ebusy, s')) ∧
    ¬AllocComplete plain s 4096 1 vmallocStart windowEnd := by
  have none : Reachable plain 8192 initialVmap := .init .start rfl
  have one := none.step (@Step.allocSetup plain 8192 initialVmap _ 4096 1 vmallocStart windowEnd true _ (by decide) le_rfl
    (by decide) rfl)
  have two := one.step (@Step.allocSetup plain 8192 _ _ 4096 1 vmallocStart windowEnd true _ (by decide) le_rfl
    (by decide) rfl)
  have three := two.step (@Step.allocSetup plain 8192 _ _ 4096 1 vmallocStart windowEnd true _ (by decide) le_rfl
    (by decide) rfl)
  have removed := three.step (@Step.remove plain 8192 _ _ vmallocStart _ rfl)
  have purged := removed.step (@Step.purge plain 8192 _ _ rfl)
  have behind := purged.step (@Step.allocSetup plain 8192 _ _ 8192 1 vmallocStart windowEnd true _ (by decide) le_rfl
    (by decide) rfl)
  refine ⟨_, behind, rfl, ⟨_, rfl⟩, fun complete => ?_⟩
  refine complete _ rfl vmallocStart ⟨one_dvd _, le_rfl, by decide, ?_⟩
  intro va mem
  have listed : va ∈ [(⟨vmallocStart + 4096, vmallocStart + 8192⟩ : VmapArea),
      ⟨vmallocStart + 8192, vmallocStart + 12288⟩, ⟨vmallocStart + 12288, vmallocStart + 20480⟩] := mem
  right
  simp only [List.mem_cons, List.not_mem_nil, or_false] at listed
  rcases listed with rfl | rfl | rfl <;> (unfold Before; simp only; omega)

end Miracle.Vmalloc
