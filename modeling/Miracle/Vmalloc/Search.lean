import Miracle.Vmalloc.Frame

/-! # What the search passes over

A walk leaves behind no place where the request would fit, and it remembers in
`cached_hole_size` the largest hole it passed.
-/

namespace Miracle.Vmalloc

open SearchTree

/-- No area overlaps the range. -/
def Free (l : List VmapArea) (start size : Nat) : Prop := ∀ va ∈ l, Apart va ⟨start, start + size⟩

section Walk

variable {size a vend addr hole f : Nat} {l all : List VmapArea}

/-- Rounding up does not pass an aligned address. -/
theorem alignUp_le {x : Nat} (aligned : a ∣ f) (above : x ≤ f) : alignUp x a ≤ f := by
  apply (Nat.mod_le _ _).trans
  obtain ⟨k, rfl⟩ := aligned
  rcases Nat.eq_zero_or_pos a with rfl | pos
  · simp
  · have less : (x + (a - 1)) / a ≤ k := by
      apply Nat.le_of_lt_succ
      rw [Nat.div_lt_iff_lt_mul pos, Nat.succ_mul, Nat.mul_comm k]
      omega
    rw [Nat.mul_comm a k]
    exact Nat.mul_le_mul_right a less

theorem alignUp_dvd (unit : a ∣ 2 ^ 64) (x : Nat) : a ∣ alignUp x a := by
  unfold alignUp u64
  rw [Nat.dvd_mod_iff unit]
  exact Nat.dvd_mul_left a _

theorem alignUp_pos {x : Nat} (unit : a ∣ 2 ^ 64) (small : x + a ≤ 2 ^ 64) (pos : 0 < x) : alignUp x a ≠ 0 := by
  have some : 0 < a := Nat.pos_of_dvd_of_pos unit (by decide)
  have split := Nat.div_add_mod (x + (a - 1)) a
  have rest := Nat.mod_lt (x + (a - 1)) some
  rw [Nat.mul_comm] at split
  unfold alignUp
  rw [u64_of_lt (by omega)]
  omega

/-- A range that is clear of an area starts behind it or ends before it. -/
theorem Free.behind {va : VmapArea} (free : Free l f size) (mem : va ∈ l) (reaches : va.vaStart < f + size) :
    va.vaEnd ≤ f := by
  rcases free va mem with before | after
  · exact before
  · exact absurd reaches (not_lt.mpr after)

/-- Where a walk fails there is no room at or above the address it began with. -/
theorem walkAreas_fails (word : vend < 2 ^ 64) (subset : ∀ va ∈ l, va ∈ all)
    (failed : ∀ found, (walkAreas size a vend l addr hole).1 = some found → vend < found + size)
    (aligned : a ∣ f) (above : addr ≤ f) (below : f + size ≤ vend) : ¬Free all f size := by
  intro free
  induction l generalizing addr hole with
  | nil =>
      have beyond := failed addr rfl
      omega
  | cons first rest ih =>
      simp only [walkAreas] at failed
      split at failed
      · rename_i skip
        have behind := free.behind (subset first List.mem_cons_self) (by omega)
        have next := alignUp_le aligned behind
        split at failed
        · omega
        · split at failed
          · have beyond := failed _ rfl
            omega
          · exact ih (fun va mem => subset va (List.mem_cons_of_mem first mem)) failed next
      · rename_i stops
        have beyond := failed addr rfl
        omega

/-- The walk ends where it began or behind an area. -/
theorem walkAreas_found {found : Nat} (result : (walkAreas size a vend l addr hole).1 = some found) :
    found = addr ∨ ∃ va ∈ l, found = alignUp va.vaEnd a := by
  induction l generalizing addr hole with
  | nil => exact .inl (Option.some.inj result).symm
  | cons first rest ih =>
      simp only [walkAreas] at result
      split at result
      · right
        split at result
        · exact absurd result.symm (Option.some_ne_none found)
        · split at result
          · exact ⟨first, List.mem_cons_self, (Option.some.inj result).symm⟩
          · rcases ih result with same | ⟨va, mem, same⟩
            · exact ⟨first, List.mem_cons_self, same⟩
            · exact ⟨va, List.mem_cons_of_mem first mem, same⟩
      · exact .inl (Option.some.inj result).symm

/-- The hole size grows only by holes that are smaller than the request. -/
theorem walkAreas_hole (a : Nat) (l : List VmapArea) (addr : Nat) (word : vend < 2 ^ 64) (fits : hole ≤ size) :
    hole ≤ (walkAreas size a vend l addr hole).2 ∧
      ((walkAreas size a vend l addr hole).2 = hole ∨ (walkAreas size a vend l addr hole).2 < size) := by
  induction l generalizing addr hole with
  | nil => exact ⟨le_rfl, .inl rfl⟩
  | cons first rest ih =>
      simp only [walkAreas]
      split
      · rename_i skip
        have sum : u64 (addr + hole) = addr + hole := u64_of_lt (by omega)
        rw [sum]
        -- the size that is remembered at this hole
        have step : hole ≤ (if addr + hole < first.vaStart then first.vaStart - addr else hole) ∧
            ((if addr + hole < first.vaStart then first.vaStart - addr else hole) = hole ∨
              (if addr + hole < first.vaStart then first.vaStart - addr else hole) < size) := by
          split_ifs <;> omega
        split
        · exact step
        · split
          · exact step
          · obtain ⟨grows, same⟩ := @ih (if addr + hole < first.vaStart then first.vaStart - addr else hole)
              (alignUp first.vaEnd a) (by omega)
            omega
      · exact ⟨le_rfl, .inl rfl⟩

/-- Holes below the address are remembered, where they were when the walk began. -/
theorem walkAreas_below (word : vend < 2 ^ 64) (fits : hole ≤ size) (subset : ∀ va ∈ l, va ∈ all)
    {vstart found : Nat}
    (holes : ∀ g n, 0 < n → a ∣ g → vstart ≤ g → g < addr → Free all g n → n ≤ hole)
    (result : (walkAreas size a vend l addr hole).1 = some found) {n : Nat} (some : 0 < n) (aligned : a ∣ f)
    (lower : vstart ≤ f) (upper : f < found) (free : Free all f n) : n ≤ (walkAreas size a vend l addr hole).2 := by
  induction l generalizing addr hole with
  | nil =>
      obtain rfl := Option.some.inj result
      exact holes f n some aligned lower upper free
  | cons first rest ih =>
      simp only [walkAreas] at result ⊢
      split at result
      · rename_i skip
        rw [if_pos skip]
        have sum : u64 (addr + hole) = addr + hole := u64_of_lt (by omega)
        rw [sum] at result ⊢
        have holes' : ∀ g n, 0 < n → a ∣ g → vstart ≤ g → g < alignUp first.vaEnd a → Free all g n →
            n ≤ (if addr + hole < first.vaStart then first.vaStart - addr else hole) := by
          intro g n some aligned lower upper free
          have before : g < first.vaEnd := by
            by_contra behind
            have passed := alignUp_le aligned (not_lt.mp behind)
            omega
          have ends : g + n ≤ first.vaStart := by
            rcases free first (subset first List.mem_cons_self) with low | high
            · exact absurd before (not_lt.mpr low)
            · exact high
          by_cases under : g < addr
          · have old := holes g n some aligned lower under free
            split_ifs <;> omega
          · split_ifs <;> omega
        split at result
        · exact absurd result.symm (Option.some_ne_none found)
        · rename_i inRange
          rw [if_neg inRange]
          split at result
          · rename_i last
            rw [if_pos last]
            obtain rfl := Option.some.inj result
            exact holes' f n some aligned lower upper free
          · rename_i more
            rw [if_neg more]
            have fits' : (if addr + hole < first.vaStart then first.vaStart - addr else hole) ≤ size := by
              split_ifs <;> omega
            exact ih fits' (fun va mem => subset va (List.mem_cons_of_mem first mem)) holes' result
      · rename_i stops
        rw [if_neg stops]
        obtain rfl := Option.some.inj result
        exact holes f n some aligned lower upper free

end Walk

theorem suffixFrom_subset (first : VmapArea) (l : List VmapArea) : ∀ va ∈ suffixFrom first l, va ∈ l :=
  fun _ mem => (List.dropWhile_sublist _).subset mem

/-! ## The search from the start of the window -/

section Nocache

variable {s : Vmap} {size a vstart vend f : Nat}

/-- The search without the cache fails only where the request does not fit at all. -/
theorem searchNocache_fails (word : vend < 2 ^ 64)
    (failed : ∀ found, (searchNocache s size a vstart vend).1 = some found → vend < found + size)
    (aligned : a ∣ f) (lower : vstart ≤ f) (upper : f + size ≤ vend) : ¬Free s.areaList f size := by
  have start := alignUp_le aligned lower
  unfold searchNocache at failed
  simp only at failed
  split at failed
  · omega
  · split at failed
    · have beyond := failed _ rfl
      omega
    · exact walkAreas_fails word (suffixFrom_subset _ _) failed aligned start upper

/-- After a search without the cache the largest hole below the place found is known. -/
theorem searchNocache_below (word : vend < 2 ^ 64) {found : Nat}
    (result : (searchNocache s size a vstart vend).1 = some found) {n : Nat} (some : 0 < n) (aligned : a ∣ f)
    (lower : vstart ≤ f) (upper : f < found) (free : Free s.areaList f n) :
    n ≤ (searchNocache s size a vstart vend).2.cachedHoleSize := by
  have start := alignUp_le aligned lower
  unfold searchNocache at result ⊢
  simp only at result ⊢
  split at result
  · exact absurd result.symm (Option.some_ne_none found)
  · rename_i inRange
    rw [if_neg inRange]
    split at result
    · obtain rfl := Option.some.inj result
      omega
    · exact walkAreas_below word (Nat.zero_le size) (suffixFrom_subset _ _)
        (fun g n _ aligned lower under _ => absurd (alignUp_le aligned lower) (not_le.mpr under)) result some aligned
        lower upper free

theorem searchNocache_found {found : Nat} (result : (searchNocache s size a vstart vend).1 = some found) :
    found = alignUp vstart a ∨ ∃ va ∈ s.areaList, found = alignUp va.vaEnd a := by
  unfold searchNocache at result
  simp only at result
  split at result
  · exact absurd result.symm (Option.some_ne_none found)
  · split at result
    · exact .inl (Option.some.inj result).symm
    · refine (walkAreas_found result).imp_right ?_
      rintro ⟨va, mem, same⟩
      exact ⟨va, suffixFrom_subset _ _ va mem, same⟩

/-- What a search without the cache writes. -/
theorem searchNocache_state (s : Vmap) (size a vstart vend : Nat) :
    (searchNocache s size a vstart vend).2.freeCache = none ∧
      (searchNocache s size a vstart vend).2.cachedVstart = vstart ∧
      (searchNocache s size a vstart vend).2.cachedAlign = a := by
  unfold searchNocache
  simp only
  split
  · exact ⟨rfl, rfl, rfl⟩
  · split <;> exact ⟨rfl, rfl, rfl⟩

end Nocache

/-! ## The search from the cache -/

/-- The cached area may be used for the request. -/
structure CacheUsable (s : Vmap) (size a vstart : Nat) (cache : VmapArea) : Prop where
  cached : s.freeCache = some cache
  hole : s.cachedHoleSize ≤ size
  lower : s.cachedVstart ≤ vstart
  align : s.cachedAlign ≤ a
  start : vstart ≤ alignUp cache.vaEnd a

section Cached

variable {s : Vmap} {size a vstart vend f : Nat} {cache : VmapArea}

/-- The search from the cached area. -/
def searchCached (s : Vmap) (size a vstart vend : Nat) (cache : VmapArea) : Option Nat × Vmap :=
  let addr := alignUp cache.vaEnd a
  let s := { s with cachedVstart := vstart, cachedAlign := a }
  if 2 ^ 64 ≤ addr + size then (none, s)
  else
    let found := walkAreas size a vend (suffixFrom cache s.areaList) addr s.cachedHoleSize
    (found.1, { s with cachedHoleSize := found.2 })

theorem searchAreas_cached (usable : CacheUsable s size a vstart cache) :
    searchAreas s size a vstart vend = searchCached s size a vstart vend cache := by
  have permitted : ¬(size < s.cachedHoleSize ∨ vstart < s.cachedVstart ∨ a < s.cachedAlign) := by
    have hole := usable.hole
    have lower := usable.lower
    have align := usable.align
    omega
  simp only [searchAreas, searchCached, usable.cached, if_neg permitted, if_neg (not_lt.mpr usable.start)]

/-- Otherwise the search begins anew. -/
theorem searchAreas_nocache (unusable : ∀ cache, ¬CacheUsable s size a vstart cache) :
    searchAreas s size a vstart vend = searchNocache s size a vstart vend := by
  unfold searchAreas
  split
  · rfl
  · rename_i first cached
    split
    · rfl
    · rename_i permitted
      push Not at permitted
      obtain ⟨hole, lower, align⟩ := permitted
      simp only
      split
      · rfl
      · rename_i start
        exact absurd ⟨cached, hole, lower, align, not_lt.mp start⟩ (unusable first)

theorem searchCached_fails (word : vend < 2 ^ 64)
    (failed : ∀ found, (searchCached s size a vstart vend cache).1 = some found → vend < found + size)
    (aligned : a ∣ f) (lower : cache.vaEnd ≤ f) (upper : f + size ≤ vend) : ¬Free s.areaList f size := by
  have start := alignUp_le aligned lower
  unfold searchCached at failed
  simp only at failed
  split at failed
  · omega
  · exact walkAreas_fails word (suffixFrom_subset _ _) failed aligned start upper

/-- Where the holes below the cached area are known, so are those below the place found. -/
theorem searchCached_below (word : vend < 2 ^ 64) (hole : s.cachedHoleSize ≤ size)
    (holes : ∀ g n, 0 < n → a ∣ g → vstart ≤ g → g < cache.vaEnd → Free s.areaList g n → n ≤ s.cachedHoleSize) {found : Nat}
    (result : (searchCached s size a vstart vend cache).1 = some found) {n : Nat} (some : 0 < n) (aligned : a ∣ f)
    (lower : vstart ≤ f) (upper : f < found) (free : Free s.areaList f n) :
    n ≤ (searchCached s size a vstart vend cache).2.cachedHoleSize := by
  unfold searchCached at result ⊢
  simp only at result ⊢
  split at result
  · exact absurd result.symm (Option.some_ne_none found)
  · rename_i inRange
    rw [if_neg inRange]
    refine walkAreas_below word hole (suffixFrom_subset _ _) (fun g n some aligned lower under free => ?_) result some
      aligned lower upper free
    apply holes g n some aligned lower _ free
    by_contra behind
    exact absurd (alignUp_le aligned (not_lt.mp behind)) (not_le.mpr under)

theorem searchCached_found {found : Nat} (result : (searchCached s size a vstart vend cache).1 = some found) :
    found = alignUp cache.vaEnd a ∨ ∃ va ∈ suffixFrom cache s.areaList, found = alignUp va.vaEnd a := by
  unfold searchCached at result
  simp only at result
  split at result
  · exact absurd result.symm (Option.some_ne_none found)
  · exact walkAreas_found result

/-- What a search from the cache writes. -/
theorem searchCached_state (a vstart : Nat) (cache : VmapArea) (word : vend < 2 ^ 64) (hole : s.cachedHoleSize ≤ size) :
    (searchCached s size a vstart vend cache).2.freeCache = s.freeCache ∧
      (searchCached s size a vstart vend cache).2.cachedVstart = vstart ∧
      (searchCached s size a vstart vend cache).2.cachedAlign = a ∧
      s.cachedHoleSize ≤ (searchCached s size a vstart vend cache).2.cachedHoleSize ∧
      ((searchCached s size a vstart vend cache).2.cachedHoleSize = s.cachedHoleSize ∨
        (searchCached s size a vstart vend cache).2.cachedHoleSize < size) := by
  unfold searchCached
  simp only
  split
  · exact ⟨rfl, rfl, rfl, le_rfl, .inl rfl⟩
  · obtain ⟨grows, same⟩ := walkAreas_hole a (suffixFrom cache s.areaList) (alignUp cache.vaEnd a) word hole
    exact ⟨rfl, rfl, rfl, grows, same⟩

end Cached

theorem searchAreas_found {s : Vmap} {size a vstart vend found : Nat} (ok : AreasOk s)
    (result : (searchAreas s size a vstart vend).1 = some found) :
    found = alignUp vstart a ∨ ∃ va ∈ s.areaList, found = alignUp va.vaEnd a := by
  by_cases usable : ∃ cache, CacheUsable s size a vstart cache
  · obtain ⟨cache, usable⟩ := usable
    rw [searchAreas_cached usable] at result
    right
    rcases searchCached_found result with same | ⟨va, mem, same⟩
    · exact ⟨cache, ok.cache cache usable.cached, same⟩
    · exact ⟨va, suffixFrom_subset _ _ va mem, same⟩
  · push Not at usable
    rw [searchAreas_nocache usable] at result
    exact searchNocache_found result

end Miracle.Vmalloc
