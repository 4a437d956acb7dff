import Miracle.Memblock.Invariant

/-! # Where the search finds a block

A block found by `memblock_find_in_range` lies in the window of the search and
between two neighbouring reserved regions.
-/

namespace Miracle.Memblock

open Extent

/-! ## The gaps of the reserved array -/

/-- The range of an iterator lies in one gap of the array `tb`. -/
def InGap (tb : MemblockType) (start stop : Nat) : Prop :=
  stop ≤ physAddrMax ∧ ∃ i ≤ tb.cnt, gapStart tb i ≤ start ∧ stop ≤ gapEnd tb i

theorem rgn_eq_getElem {t : MemblockType} {i : Nat} (h : i < t.regions.length) :
    t.rgn i = t.regions[i] := List.getD_eq_getElem _ _ h

theorem TypeInv.base_le {t : MemblockType} (inv : TypeInv t) {i j : Nat} (le : i ≤ j)
    (h : j < t.regions.length) : (t.rgn i).base ≤ (t.rgn j).base := by
  rcases Nat.lt_or_eq_of_le le with lt | rfl
  · have apart := List.pairwise_iff_getElem.mp inv.apart i j (by omega) h lt
    rw [rgn_eq_getElem (by omega), rgn_eq_getElem h]
    simp only [stop] at apart
    omega
  · exact le_rfl

theorem TypeInv.stop_le {t : MemblockType} (inv : TypeInv t) {i j : Nat} (le : i ≤ j)
    (h : j < t.regions.length) : (t.rgn i).stop ≤ (t.rgn j).stop := by
  rcases Nat.lt_or_eq_of_le le with lt | rfl
  · have apart := List.pairwise_iff_getElem.mp inv.apart i j (by omega) h lt
    rw [rgn_eq_getElem (by omega), rgn_eq_getElem h]
    simp only [stop] at *
    omega
  · exact le_rfl

theorem InGap.free {tb : MemblockType} (inv : TypeInv tb) {start stop : Nat}
    (gap : InGap tb start stop) {a : Nat} (low : start ≤ a) (high : a < stop) :
    lookup tb.regions a = none := by
  obtain ⟨_, i, le, before, after⟩ := gap
  rw [lookup_eq_none_iff]
  intro e member inside
  obtain ⟨j, hj, rfl⟩ := List.getElem_of_mem member
  rw [← rgn_eq_getElem hj] at inside
  obtain ⟨base, stop⟩ := inside
  rcases Nat.lt_or_ge j i with lt | ge
  · -- the region lies below the gap
    have index : i - 1 < tb.regions.length := by simp only [MemblockType.cnt] at le; omega
    have bound : (tb.rgn (i - 1)).stop ≤ physAddrMax := by
      rw [rgn_eq_getElem index]
      exact inv.bounded _ (List.getElem_mem index)
    have := inv.stop_le (by omega : j ≤ i - 1) index
    rw [gapStart, if_neg (by omega), limit_of_le bound] at before
    omega
  · have index : i < tb.cnt := by simp only [MemblockType.cnt]; omega
    have := inv.base_le ge hj
    rw [gapEnd, if_pos index] at after
    omega

/-! ## The packed indices -/

theorem toInt32_le (n : Nat) : toInt32 n ≤ n := by
  unfold toInt32
  split <;> omega

theorem idxB_packIdx (a b : Int) : idxB (packIdx a b) = toInt32 (b % 2 ^ 32).toNat := by
  have low : (a % 2 ^ 32).toNat / 2 ^ 32 = 0 := Nat.div_eq_of_lt (by omega)
  rw [idxB, packIdx, Nat.shiftRight_or_distrib, Nat.shiftLeft_shiftRight,
    Nat.shiftRight_eq_div_pow, low, Nat.zero_or]

theorem idxB_packIdx_le (a : Int) {b : Int} (h : -1 ≤ b) : idxB (packIdx a b) ≤ b := by
  rw [idxB_packIdx]
  have := toInt32_le (b % 2 ^ 32).toNat
  by_cases neg : b = -1
  · subst neg
    decide
  · omega

theorem belowOrEnd_le {idx : Int} {cnt bound : Nat} (h : idx ≤ bound) (le : cnt ≤ bound) :
    belowOrEnd idx cnt ≤ bound := by
  unfold belowOrEnd
  split <;> omega

/-! ## The ranges of the iterators -/

/-- What an iterator returns: a range in a gap and an index that stays in bounds. -/
structure GoodRange (tb : MemblockType) (bound : Nat) (r : MemRange) : Prop where
  gap : InGap tb r.outStart r.outEnd
  idx : idxB r.idx ≤ bound

theorem limit_le (r : Region) : r.limit ≤ physAddrMax := by
  have := u64_lt (r.base + r.size)
  simp only [Region.limit, physAddrMax]
  omega

theorem nextMemRangeGaps_good (tb : MemblockType) (a mStart : Nat) (m : Region) :
    ∀ (fuel b : Nat), b ≤ tb.cnt + 1 →
      (∀ r, nextMemRangeGaps tb a mStart m.limit fuel b = .inl r → GoodRange tb (tb.cnt + 1) r) ∧
      ∀ b', nextMemRangeGaps tb a mStart m.limit fuel b = .inr b' → b' ≤ tb.cnt + 1 := by
  intro fuel
  induction fuel with
  | zero =>
      intro b le
      simp only [nextMemRangeGaps]
      exact ⟨by simp, by simpa using le⟩
  | succ fuel ih =>
      intro b le
      simp only [nextMemRangeGaps]
      split
      · rename_i inside
        split
        · exact ⟨by simp, by simpa using le⟩
        · split
          · refine ⟨?_, by simp⟩
            rintro r ⟨rfl⟩
            have := limit_le m
            refine ⟨⟨by simp only; omega, b, by omega, by simp, by simp⟩, ?_⟩
            simp only
            split
            · exact (idxB_packIdx_le _ (by omega)).trans (by omega)
            · exact (idxB_packIdx_le _ (by omega)).trans (by omega)
          · exact ih (b + 1) (by omega)
      · exact ⟨by simp, by simpa using le⟩

theorem nextMemRangeLoop_good {flags : Flags} {ta tb : MemblockType} :
    ∀ (fuel a b : Nat), b ≤ tb.cnt + 1 →
      ∀ r, nextMemRangeLoop flags ta (some tb) fuel a b = some r → GoodRange tb (tb.cnt + 1) r := by
  intro fuel
  induction fuel with
  | zero =>
      intro a b _ r found
      cases found
  | succ fuel ih =>
      intro a b le r found
      simp only [nextMemRangeLoop] at found
      split at found
      · split at found
        · exact ih _ _ le r found
        · have good := nextMemRangeGaps_good tb a (ta.rgn a).base (ta.rgn a) (tb.cnt + 1 - b) b le
          split at found
          · cases found
            exact good.1 _ ‹_›
          · exact ih _ _ (good.2 _ ‹_›) r found
      · cases found

theorem nextMemRange_good {idx : Nat} {flags : Flags} {ta tb : MemblockType} {r : MemRange}
    (le : idxB idx ≤ tb.cnt + 1) (found : nextMemRange idx flags ta (some tb) = some r) :
    GoodRange tb (tb.cnt + 1) r :=
  nextMemRangeLoop_good _ _ _ (belowOrEnd_le (by exact_mod_cast le) le_rfl) r found

theorem nextMemRangeRevGaps_good (tb : MemblockType) (a mStart : Nat) (m : Region) :
    ∀ b ≤ tb.cnt + 1,
      (∀ r, nextMemRangeRevGaps tb a mStart m.limit b = .inl r → GoodRange tb tb.cnt r) ∧
      ∀ b', nextMemRangeRevGaps tb a mStart m.limit b = .inr b' → b' ≤ tb.cnt + 1 := by
  intro b
  induction b with
  | zero =>
      intro le
      simp only [nextMemRangeRevGaps]
      exact ⟨by simp, by simp⟩
  | succ b ih =>
      intro le
      simp only [nextMemRangeRevGaps]
      split
      · exact ⟨by simp, by simpa using le⟩
      · split
        · refine ⟨?_, by simp⟩
          rintro r ⟨rfl⟩
          have := limit_le m
          refine ⟨⟨by simp only; omega, b, by omega, by simp, by simp⟩, ?_⟩
          simp only
          split
          · exact (idxB_packIdx_le _ (by omega)).trans (by omega)
          · exact (idxB_packIdx_le _ (by omega)).trans (by omega)
        · exact ih (by omega)

theorem nextMemRangeRevLoop_good {flags : Flags} {ta tb : MemblockType} :
    ∀ a b : Nat, b ≤ tb.cnt + 1 →
      ∀ r, nextMemRangeRevLoop flags ta (some tb) a b = some r → GoodRange tb tb.cnt r := by
  intro a
  induction a with
  | zero =>
      intro b _ r found
      cases found
  | succ a ih =>
      intro b le r found
      simp only [nextMemRangeRevLoop] at found
      split at found
      · exact ih _ le r found
      · have good := nextMemRangeRevGaps_good tb a (ta.rgn a).base (ta.rgn a) b le
        split at found
        · cases found
          exact good.1 _ ‹_›
        · exact ih _ (good.2 _ ‹_›) r found

theorem nextMemRangeRev_good {idx : Nat} {flags : Flags} {ta tb : MemblockType} {r : MemRange}
    (le : idx = ullongMax ∨ idxB idx ≤ tb.cnt) (found : nextMemRangeRev idx flags ta (some tb) = some r) :
    GoodRange tb tb.cnt r := by
  unfold nextMemRangeRev at found
  split at found
  · refine nextMemRangeRevLoop_good _ _ ?_ r found
    have := toInt32_le (tb.cnt % 2 ^ 32)
    simp only
    omega
  · refine nextMemRangeRevLoop_good _ _ ?_ r found
    omega

/-! ## The searches -/

/-- The block `[addr, addr + size)` lies in a gap of `tb` and in the window. -/
structure Found (tb : MemblockType) (start end_ size addr : Nat) : Prop where
  low : start ≤ addr
  high : addr + size ≤ end_
  gap : InGap tb addr (addr + size)

theorem findLoop_spec (good : MemRange → Prop) (ok : Nat → Prop) {next : Nat → Option MemRange}
    {fit : MemRange → Option Nat}
    (step : ∀ r, good r → ∀ r', next r.idx = some r' → good r')
    (accept : ∀ r, good r → ∀ c, fit r = some c → c = 0 ∨ ok c) :
    ∀ (fuel : Nat) (range : Option MemRange), (∀ r, range = some r → good r) →
      findLoop next fit fuel range = 0 ∨ ok (findLoop next fit fuel range) := by
  intro fuel
  induction fuel with
  | zero =>
      intro range _
      exact .inl rfl
  | succ fuel ih =>
      intro range h
      cases range with
      | none => exact .inl rfl
      | some r =>
          simp only [findLoop]
          split
          · exact .inl rfl
          · split
            · exact accept r (h r rfl) _ ‹_›
            · exact ih _ (step r (h r rfl))

theorem InGap.mono {tb : MemblockType} {start stop start' stop' : Nat} (h : InGap tb start stop)
    (low : start ≤ start') (high : stop' ≤ stop) : InGap tb start' stop' := by
  obtain ⟨bound, i, le, before, after⟩ := h
  exact ⟨by omega, i, le, by omega, by omega⟩

/-- A nonempty part of the clamped range lies in the range and in the window. -/
theorem found_of_clamped {tb : MemblockType} {start end_ size addr : Nat} {r : MemRange}
    (gap : InGap tb r.outStart r.outEnd) (pos : 0 < size) (window : start ≤ end_)
    (low : clamp r.outStart start end_ ≤ addr) (high : addr + size ≤ clamp r.outEnd start end_) :
    Found tb start end_ size addr := by
  unfold clamp at *
  exact ⟨by omega, by omega, gap.mono (by omega) (by omega)⟩

theorem le_roundUp {x : Nat} (pos : 0 < x) (small : x < 2 ^ 64) (y : Nat) :
    roundUp x y = 0 ∨ x ≤ roundUp x y := by
  have one : u64Sub x 1 = x - 1 := u64Sub_of_le small pos
  have le : x - 1 ≤ (x - 1) ||| u64Sub y 1 := Nat.left_le_or
  have lt : (x - 1) ||| u64Sub y 1 < 2 ^ 64 :=
    Nat.or_lt_two_pow (by omega) (Nat.mod_lt _ (by decide))
  unfold roundUp
  rw [one]
  unfold u64
  omega

theorem roundDown_le (x y : Nat) : roundDown x y ≤ x := Nat.and_le_left

section

variable (mb : State) {start end_ size : Nat} (align : Nat) (flags : Flags)
  (window : start ≤ end_) (high : end_ ≤ physAddrMax) (pos : 0 < size)

include window pos

theorem findRangeTopDown_spec :
    memblockFindRangeTopDown mb start end_ size align flags = 0 ∨
      Found mb.reserved start end_ size
        (memblockFindRangeTopDown mb start end_ size align flags) := by
  refine findLoop_spec (GoodRange mb.reserved mb.reserved.cnt)
    (Found mb.reserved start end_ size)
    (fun r good r' found => nextMemRangeRev_good (.inr good.idx) found) ?_ _ _
    (fun r found => nextMemRangeRev_good (.inl rfl) found)
  intro r good c fit
  unfold fitTopDown at fit
  simp only at fit
  split at fit
  · cases fit
  · split at fit
    · cases fit
      have := roundDown_le (clamp r.outEnd start end_ - size) align
      exact .inr (found_of_clamped good.gap pos window ‹_› (by omega))
    · cases fit

include high

theorem findRangeBottomUp_spec (low : 0 < start) :
    memblockFindRangeBottomUp mb start end_ size align flags = 0 ∨
      Found mb.reserved start end_ size
        (memblockFindRangeBottomUp mb start end_ size align flags) := by
  refine findLoop_spec (GoodRange mb.reserved (mb.reserved.cnt + 1))
    (Found mb.reserved start end_ size)
    (fun r good r' found => nextMemRange_good (by exact_mod_cast good.idx) found) ?_ _ _
    (fun r found => nextMemRange_good (by simp [idxB, toInt32]; omega) found)
  intro r good c fit
  unfold fitBottomUp at fit
  simp only at fit
  split at fit
  · cases fit
    have clamped : 0 < clamp r.outStart start end_ ∧ clamp r.outStart start end_ < 2 ^ 64 := by
      simp only [clamp, physAddrMax] at *
      omega
    rcases le_roundUp clamped.1 clamped.2 align with zero | up
    · exact .inl zero
    · exact .inr (found_of_clamped good.gap pos window up (by omega))
  · cases fit

end

/-- A block found in `[start, end_)`; an `end_` of zero means the limit. -/
theorem findInRange_spec (env : Env) (mb : State) {start end_ size : Nat} (align : Nat)
    (pos : 0 < size) (low : start ≤ physAddrMax) (high : end_ ≤ physAddrMax)
    (found : memblockFindInRange env mb start end_ size align ≠ 0) :
    Found mb.reserved (max start pageSize)
      (max (max start pageSize) (if end_ = 0 then mb.currentLimit.toNat else end_)) size
      (memblockFindInRange env mb start end_ size align) := by
  have limit := mb.currentLimit.isLt
  unfold memblockFindInRange memblockFindInRange' at *
  simp only at *
  generalize hend : (if end_ = 0 then mb.currentLimit.toNat else end_) = limit at *
  have high' : limit ≤ physAddrMax := by
    rw [← hend]
    split
    · simp only [physAddrMax]
      omega
    · exact high
  have topDown := findRangeTopDown_spec mb align Flags.none
    (le_max_left (max start pageSize) limit) pos
  split at found
  · rename_i up
    have bottomUp := findRangeBottomUp_spec mb align Flags.none
      (by omega : max (max start pageSize) env.kernelEnd ≤ max (max start pageSize) limit)
      (by simp only [pageSize, physAddrMax] at *; omega) pos (by simp only [pageSize]; omega)
    split at found
    · rename_i hit
      rw [if_pos up, if_pos hit]
      have block := bottomUp.resolve_left hit
      exact ⟨le_trans (le_max_left _ _) block.low, block.high, block.gap⟩
    · rename_i miss
      rw [if_pos up, if_neg miss]
      exact topDown.resolve_left found
  · rename_i down
    rw [if_neg down]
    exact topDown.resolve_left found

/-- The block for a doubled array: it is free, and for `reserved` it avoids the new
    area unless that starts at zero. -/
theorem findNewArray_spec (env : Env) (slab : env.slabIsAvailable = false) (mb : State) (ty : TypeId)
    {newAreaStart newAreaSize : Nat} (area : newAreaStart + newAreaSize ≤ physAddrMax)
    (pos : 0 < pageAlign ((mb.type ty).max * sizeofRegion * 2))
    (found : findNewArray env mb ty newAreaStart newAreaSize ≠ 0) :
    InGap mb.reserved (findNewArray env mb ty newAreaStart newAreaSize)
        (findNewArray env mb ty newAreaStart newAreaSize +
          pageAlign ((mb.type ty).max * sizeofRegion * 2)) ∧
      (ty = .reserved → newAreaStart ≠ 0 →
        newAreaStart + newAreaSize ≤ findNewArray env mb ty newAreaStart newAreaSize ∨
        findNewArray env mb ty newAreaStart newAreaSize +
          pageAlign ((mb.type ty).max * sizeofRegion * 2) ≤ newAreaStart) := by
  have limit := mb.currentLimit.isLt
  have limit' : mb.currentLimit.toNat ≤ physAddrMax := by
    simp only [physAddrMax]
    omega
  -- outside `reserved` the area is not excluded
  obtain ⟨start, size, hs, area', keep⟩ : ∃ start size,
      (if ty = .reserved then (newAreaStart, newAreaSize) else (0, 0)) = (start, size) ∧
      start + size ≤ physAddrMax ∧ (ty = .reserved → start = newAreaStart ∧ size = newAreaSize) := by
    by_cases same : ty = .reserved
    · exact ⟨newAreaStart, newAreaSize, if_pos same, area, fun _ => ⟨rfl, rfl⟩⟩
    · exact ⟨0, 0, if_neg same, by simp, fun h => absurd h same⟩
  have wrap : u64 (start + size) = start + size := by
    refine u64_of_lt ?_
    simp only [physAddrMax] at area'
    omega
  simp only [findNewArray, slab, Bool.false_eq_true, if_false, hs, wrap] at found ⊢
  split at found
  · rename_i again
    rw [if_pos again]
    have block := findInRange_spec env mb pageSize pos (by simp)
      (by omega : min start mb.currentLimit.toNat ≤ physAddrMax) found
    refine ⟨block.gap, ?_⟩
    intro same nonzero
    obtain ⟨rfl, rfl⟩ := keep same
    have high := block.high
    have low := block.low
    right
    split at high
    · simp only [pageSize] at *
      omega
    · omega
  · rename_i first
    rw [if_neg first]
    have block := findInRange_spec env mb pageSize pos area' limit' found
    refine ⟨block.gap, ?_⟩
    intro same nonzero
    obtain ⟨rfl, rfl⟩ := keep same
    have low := block.low
    left
    omega

end Miracle.Memblock
