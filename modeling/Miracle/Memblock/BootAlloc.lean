import Miracle.Memblock.FirstFit

/-! # Allocating boot memory

Before the slab allocator is available memory is taken from `memory && !reserved` by a search and a reservation of what
was found.  The reservation can double the `reserved` array, which takes its new storage from the same free memory.
-/

namespace Miracle.Memblock

open Extent

/-! ## The allocators -/

/-- `SMP_CACHE_BYTES` -/
def smpCacheBytes : Nat := 64

def orCacheBytes (align : Nat) : Nat := if align = 0 then smpCacheBytes else align

section

variable (env : Env)

/-- A search followed by `memblock_reserve` of what it found; the second component is zero if one of them fails. -/
def findAndReserve (mb : State) (size align start end_ : Nat) (flags : Flags) : Except Bug (State × Nat) :=
  let found := memblockFindInRange' env mb size align start end_ flags
  if found = 0 then .ok (mb, 0)
  else do
    let (mb, ret) ← memblockReserve env mb found size
    if ret = 0 then return (mb, found) else return (mb, 0)

/-- `__memblock_alloc_range` -/
def memblockAllocRange' (mb : State) (size align start end_ : Nat) (flags : Flags) : Except Bug (State × Nat) :=
  findAndReserve env mb size (orCacheBytes align) start end_ flags

def memblockAllocRange (mb : State) (size align start end_ : Nat) (flags : Flags) : Except Bug (State × Nat) :=
  memblockAllocRange' env mb size align start end_ flags

def memblockAllocBase (mb : State) (size align maxAddr : Nat) (flags : Flags) : Except Bug (State × Nat) :=
  memblockAllocRange' env mb size align 0 maxAddr flags

/-- `memblock_phys_alloc`, with the flags of `choose_memblock_flags`; `MEMBLOCK_ALLOC_ACCESSIBLE` is zero. -/
def memblockPhysAlloc (mb : State) (size align : Nat) : Except Bug (State × Nat) :=
  memblockAllocBase env mb size align 0 Flags.none

/-- `memblock_alloc_internal`, with the physical address of the pointer that it returns.  `kzalloc` is asked once the
    slab allocator is available. -/
def memblockAllocInternal (kzalloc : Nat → Nat) (mb : State) (size align minAddr maxAddr : Nat) :
    Except Bug (State × Nat) :=
  if env.slabIsAvailable then .ok (mb, kzalloc size)
  else do
    let align := orCacheBytes align
    let maxAddr := if maxAddr > mb.currentLimit.toNat then mb.currentLimit.toNat else maxAddr
    let (mb, alloc) ← findAndReserve env mb size align minAddr maxAddr Flags.none
    if alloc ≠ 0 then return (mb, alloc)
    -- the lower bound is only a preference
    else if minAddr ≠ 0 then findAndReserve env mb size align 0 maxAddr Flags.none
    else return (mb, 0)

end

/-! ## Where a block is found -/

/-- The block lies in one region, which is mapped unless the flags ask for what is not mapped. -/
def InWanted (mb : State) (flags : Flags) (start stop : Nat) : Prop :=
  ∃ m ∈ mb.memory.regions, (flags &&& Flags.nomap = 0 → memblockIsNomap m = false) ∧ m.base ≤ start ∧ stop ≤ m.stop

theorem nextMemRangeGaps_cut {tb : MemblockType} {a mStart mEnd : Nat} :
    ∀ (fuel b : Nat) (r : MemRange), nextMemRangeGaps tb a mStart mEnd fuel b = .inl r →
      0 < mEnd ∧ mStart ≤ r.outStart ∧ r.outEnd ≤ mEnd := by
  intro fuel
  induction fuel with
  | zero =>
      intro b r found
      cases found
  | succ fuel ih =>
      intro b r found
      rw [nextMemRangeGaps] at found
      split at found
      · simp only at found
        split at found
        · cases found
        · rename_i past
          split at found
          · cases found
            exact ⟨by omega, le_max_left _ _, min_le_left _ _⟩
          · exact ih (b + 1) r found
      · cases found

theorem nextMemRangeRevGaps_cut {tb : MemblockType} {a mStart mEnd : Nat} :
    ∀ (b : Nat) (r : MemRange), nextMemRangeRevGaps tb a mStart mEnd b = .inl r →
      0 < mEnd ∧ mStart ≤ r.outStart ∧ r.outEnd ≤ mEnd := by
  intro b
  induction b with
  | zero =>
      intro r found
      cases found
  | succ b ih =>
      intro r found
      rw [nextMemRangeRevGaps] at found
      split at found
      · cases found
      · split at found
        · cases found
          exact ⟨by omega, le_max_left _ _, min_le_left _ _⟩
        · exact ih r found

section

variable {mb : State} (inv : Inv mb) {flags : Flags}

theorem rgn_of_limit {t : MemblockType} {i : Nat} (pos : 0 < (t.rgn i).limit) : i < t.cnt := by
  by_contra outside
  have none : t.rgn i = Region.dummy := by
    rw [MemblockType.rgn, List.getD_eq_default _ _ (Nat.not_lt.mp outside)]
  rw [none] at pos
  cases pos

include inv

/-- A range that is cut from region `a` lies in a region that the flags ask for. -/
theorem inWanted_of_cut {a : Nat} (pos : 0 < (mb.memory.rgn a).limit)
    (wanted : ¬ (flags &&& Flags.nomap = 0 ∧ memblockIsNomap (mb.memory.rgn a) = true)) {start stop : Nat}
    (low : (mb.memory.rgn a).base ≤ start) (high : stop ≤ (mb.memory.rgn a).limit) : InWanted mb flags start stop := by
  have lt := rgn_of_limit pos
  have limit : (mb.memory.rgn a).limit = (mb.memory.rgn a).stop := rgn_limit (inv .memory) lt
  refine ⟨_, rgn_mem lt, ?_, low, limit ▸ high⟩
  intro mapped
  by_contra nomap
  exact wanted ⟨mapped, by simpa using nomap⟩

theorem nextMemRangeLoop_wanted :
    ∀ (fuel a b : Nat) (r : MemRange), nextMemRangeLoop flags mb.memory (some mb.reserved) fuel a b = some r →
      InWanted mb flags r.outStart r.outEnd := by
  intro fuel
  induction fuel with
  | zero =>
      intro a b r found
      cases found
  | succ fuel ih =>
      intro a b r found
      rw [nextMemRangeLoop] at found
      simp only at found
      split at found
      · split at found
        · exact ih _ _ r found
        · rename_i wanted
          split at found
          · rename_i range cut
            cases found
            obtain ⟨pos, low, high⟩ := nextMemRangeGaps_cut _ _ _ cut
            exact inWanted_of_cut inv pos wanted low high
          · exact ih _ _ r found
      · cases found

theorem nextMemRangeRevLoop_wanted :
    ∀ (a b : Nat) (r : MemRange), nextMemRangeRevLoop flags mb.memory (some mb.reserved) a b = some r →
      InWanted mb flags r.outStart r.outEnd := by
  intro a
  induction a with
  | zero =>
      intro b r found
      cases found
  | succ a ih =>
      intro b r found
      rw [nextMemRangeRevLoop] at found
      split at found
      · exact ih _ r found
      · rename_i wanted
        split at found
        · rename_i range cut
          cases found
          obtain ⟨pos, low, high⟩ := nextMemRangeRevGaps_cut _ _ cut
          exact inWanted_of_cut inv pos wanted low high
        · exact ih _ r found

end

/-- A block that a search may return. -/
structure Granted (mb : State) (size align start end_ : Nat) (flags : Flags) (a : Nat) : Prop where
  aligned : ∀ k < 64, align = 2 ^ k → 2 ^ k ∣ a
  low : start ≤ a
  high : a + size ≤ end_
  gap : InGap mb.reserved a (a + size)
  wanted : InWanted mb flags a (a + size)

section

variable {mb : State} (inv : Inv mb) {flags : Flags} {size align start end_ : Nat} (pos : 0 < size) (low : 0 < start)
  (window : start ≤ end_) (top : end_ ≤ physAddrMax)

include inv pos window top

theorem findRangeTopDown_granted {a : Nat} (result : memblockFindRangeTopDown mb start end_ size align flags = a)
    (found : a ≠ 0) : Granted mb size align start end_ flags a := by
  subst result
  obtain ⟨low, high, gap⟩ := (findRangeTopDown_spec mb align flags window pos).resolve_left found
  have cut : memblockFindRangeTopDown mb start end_ size align flags = 0 ∨
      (∀ k < 64, align = 2 ^ k → 2 ^ k ∣ memblockFindRangeTopDown mb start end_ size align flags) ∧
        InWanted mb flags (memblockFindRangeTopDown mb start end_ size align flags)
          (memblockFindRangeTopDown mb start end_ size align flags + size) := by
    have wanted (idx : Nat) (r : MemRange) (next : nextMemRangeRev idx flags mb.memory (some mb.reserved) = some r) :
        InWanted mb flags r.outStart r.outEnd := by
      unfold nextMemRangeRev at next
      split at next
      · exact nextMemRangeRevLoop_wanted inv _ _ _ next
      · exact nextMemRangeRevLoop_wanted inv _ _ _ next
    apply findLoop_spec (fun r => InWanted mb flags r.outStart r.outEnd)
      fun c => (∀ k < 64, align = 2 ^ k → 2 ^ k ∣ c) ∧ InWanted mb flags c (c + size)
    · intro r _ r' next
      exact wanted _ r' next
    · rintro r ⟨m, member, mapped, left, right⟩ c fit
      unfold fitTopDown at fit
      simp only at fit
      split at fit
      · cases fit
      · split at fit
        · rename_i room
          cases fit
          right
          have down := roundDown_le (clamp r.outEnd start end_ - size) align
          have word : clamp r.outEnd start end_ - size < 2 ^ 64 := by
            simp only [clamp, physAddrMax] at *
            omega
          refine ⟨fun k small power => power ▸ roundDown_dvd word small, m, member, mapped, ?_, ?_⟩
          all_goals simp only [clamp] at *; omega
        · cases fit
    · intro r first
      exact wanted _ r first
  obtain ⟨aligned, wanted⟩ := cut.resolve_left found
  exact ⟨aligned, low, high, gap, wanted⟩

include low

theorem findRangeBottomUp_granted {a : Nat} (result : memblockFindRangeBottomUp mb start end_ size align flags = a)
    (found : a ≠ 0) : Granted mb size align start end_ flags a := by
  subst result
  obtain ⟨left, high, gap⟩ := (findRangeBottomUp_spec mb align flags window top pos low).resolve_left found
  have cut : memblockFindRangeBottomUp mb start end_ size align flags = 0 ∨
      (∀ k < 64, align = 2 ^ k → 2 ^ k ∣ memblockFindRangeBottomUp mb start end_ size align flags) ∧
        InWanted mb flags (memblockFindRangeBottomUp mb start end_ size align flags)
          (memblockFindRangeBottomUp mb start end_ size align flags + size) := by
    apply findLoop_spec (fun r => InWanted mb flags r.outStart r.outEnd)
      fun c => (∀ k < 64, align = 2 ^ k → 2 ^ k ∣ c) ∧ InWanted mb flags c (c + size)
    · intro r _ r' next
      exact nextMemRangeLoop_wanted inv _ _ _ _ next
    · rintro r ⟨m, member, mapped, left, right⟩ c fit
      unfold fitBottomUp at fit
      simp only at fit
      split at fit
      · rename_i room
        cases fit
        have clamped : 0 < clamp r.outStart start end_ ∧ clamp r.outStart start end_ < 2 ^ 64 := by
          simp only [clamp, physAddrMax] at *
          omega
        rcases le_roundUp clamped.1 clamped.2 align with zero | up
        · exact .inl zero
        · right
          refine ⟨fun k small power => power ▸ roundUp_dvd clamped.1 clamped.2 small, m, member, mapped, ?_, ?_⟩
          all_goals simp only [clamp] at *; omega
      · cases fit
    · intro r first
      exact nextMemRangeLoop_wanted inv _ _ _ _ first
  obtain ⟨aligned, wanted⟩ := cut.resolve_left found
  exact ⟨aligned, left, high, gap, wanted⟩

end

/-- What `__memblock_find_in_range` returns, for any alignment and flags. -/
theorem findInRange_granted (env : Env) {mb : State} (inv : Inv mb) {flags : Flags} {size align start end_ : Nat}
    (pos : 0 < size) (low : start ≤ physAddrMax) (high : end_ ≤ physAddrMax) {a : Nat}
    (result : memblockFindInRange' env mb size align start end_ flags = a) (found : a ≠ 0) :
    Granted mb size align (max start pageSize) (effectiveEnd mb end_) flags a := by
  have first : 0 < max start pageSize := lt_of_lt_of_le (by decide) (le_max_right start pageSize)
  have top : max (max start pageSize) (effectiveEnd mb end_) ≤ physAddrMax := by
    have limit := mb.currentLimit.isLt
    simp only [physAddrMax, effectiveEnd, pageSize] at *
    split
    · omega
    · omega
  -- a block above the start does not reach the start, so that the end is not the one that was raised
  have lower {from_ : Nat} (le : max start pageSize ≤ from_)
      (granted : Granted mb size align from_ (max (max start pageSize) (effectiveEnd mb end_)) flags a) :
      Granted mb size align (max start pageSize) (effectiveEnd mb end_) flags a := by
    have low := granted.low
    have high := granted.high
    exact ⟨granted.aligned, by omega, by omega, granted.gap, granted.wanted⟩
  rw [memblockFindInRange', ← effectiveEnd] at result
  simp only at result
  split at result
  · rename_i up
    split at result
    · refine lower (le_max_left _ env.kernelEnd) (findRangeBottomUp_granted inv pos ?_ ?_ top result found)
      · exact lt_of_lt_of_le first (le_max_left _ _)
      · exact max_le (le_max_left _ _) up.2.le
    · exact lower le_rfl (findRangeTopDown_granted inv pos (le_max_left _ _) top result found)
  · exact lower le_rfl (findRangeTopDown_granted inv pos (le_max_left _ _) top result found)

/-! ## Growing `reserved` once -/

section

variable {env : Env} (slab : env.slabIsAvailable = false) {mb : State} (good : Good mb) (apart : Apart mb)
  (held : ∀ ty, Held mb ty)

include good apart held

/-- Room for up to two regions takes one doubling; a doubling that fails changes nothing. -/
theorem growReserved_once (depth : Nat) {base size need : Nat} (area : base + size ≤ physAddrMax) (few : need ≤ 2) :
    ∃ mid room, growWhile (memblockDoubleArray env (depth + 1)) .reserved need base size growRounds mb = .ok (mid, room) ∧
      ((mid = mb ∧ (room = true → mb.reserved.cnt + need ≤ mb.reserved.max)) ∨
        (room = true ∧ ∃ addr, Doubled env .reserved base size addr mb mid)) := by
  by_cases fits : (mb.type .reserved).cnt + need ≤ (mb.type .reserved).max
  · exact ⟨mb, true, growWhile_fits fits _ _ 63, .inl ⟨rfl, fun _ => fits⟩⟩
  have ready : Ready env mb := fun _ _ => held
  obtain ⟨mid, ret, done, outcome⟩ := double_safe env depth good (fun _ => apart) .reserved area (by simp)
    (ready.writable .reserved base size)
  rw [growRounds, growWhile, if_pos (Nat.not_le.mp fits), done, ok_bind]
  rcases outcome with ⟨rfl, rfl⟩ | ⟨rfl, addr, doubled⟩
  · exact ⟨mid, false, rfl, .inl ⟨rfl, fun no => absurd no (by decide)⟩⟩
  · have room : (mid.type .reserved).cnt + need ≤ (mid.type .reserved).max :=
      (Nat.add_le_add_left few _).trans (doubled.room good)
    exact ⟨mid, true, growWhile_fits room _ _ 62, .inr ⟨rfl, addr, doubled⟩⟩

end

/-- The array of `reserved` stays where it is or moves once. -/
def Settled (env : Env) (base size : Nat) (mb mid : State) : Prop :=
  mid = mb ∨ ∃ addr, Doubled env .reserved base size addr mb mid

section

variable {env : Env} (slab : env.slabIsAvailable = false) {mb : State} (good : Good mb) (apart : Apart mb)
  (held : ∀ ty, Held mb ty)

include slab good apart held

/-- Reserving a free block succeeds, after at most one doubling, or changes nothing. -/
theorem reserve_free {base size : Nat} (pos : 0 < size) (low : base ≠ 0) (high : base + size ≤ physAddrMax)
    (free : ∀ x, base ≤ x → x < base + size → mb.map .reserved x = none) :
    (∃ mid mb', memblockReserve env mb base size = .ok (mb', 0) ∧ Settled env base size mb mid ∧
        Edit .reserved (withRange base size Flags.none) mid mb' ∧ Inv mb') ∨
      ∃ ret, memblockReserve env mb base size = .ok (mb, ret) ∧ ret ≠ 0 := by
  have cap : memblockCapSize base size = size := by
    unfold memblockCapSize
    omega
  have one : missing mb .reserved base size ≤ 1 := by
    apply missing_of_free good.inv
    rintro x ⟨above, below⟩
    exact free x above (by omega)
  by_cases fits : (mb.type .reserved).cnt + missing mb .reserved base size ≤ (mb.type .reserved).max
  · obtain ⟨mb', done, edit, inv, -⟩ := addRangeWith_fits (memblockDoubleArray env nesting) good.inv .reserved Flags.none
      fits
    exact .inl ⟨mb, mb', done, .inl rfl, edit, inv⟩
  -- the array is full, so it holds a region and the block is missing
  obtain ⟨l, contents⟩ := (good.inv .reserved).contents
  have large : 128 ≤ (mb.type .reserved).max := (good.sized .reserved).bounds.1
  have cnt := contents.cnt_eq
  have nil : l ≠ [] := by
    rintro rfl
    have single : (mb.type .reserved).cnt = 1 := cnt
    omega
  have some : pieces (base + size) l base ≠ 0 := by
    have le := (good.inv .reserved).cnt_le
    rw [missing_eq contents, cap] at fits
    omega
  -- the array lies in reserved memory, apart from the block
  have clear : Clear env mb base size := by
    refine ⟨.inr low, ?_⟩
    intro block theirs
    obtain ⟨-, array, length⟩ := heldBlock_eq_some theirs
    have covers := (held .reserved block.1 array).2
    have bounds := (good.sized .reserved).bounds
    have storage := arrayAllocSize_ge (by omega : (mb.type .reserved).max ≤ 2 ^ 59)
    simp only [sizeofRegion] at storage
    have sides := covers.disjoint free (by omega) (by omega)
    rw [cap]
    omega
  have few : pieces (base + size) l base ≤ 2 := by
    rw [missing_eq contents, cap] at one
    omega
  obtain ⟨mid, room, grow, outcome⟩ := @growReserved_once env mb good apart held 1 base size _ high few
  have body := @addRangeWith_eq (memblockDoubleArray env nesting) mb .reserved l contents base size Flags.none
  rw [cap, if_neg (by omega)] at body
  simp only [if_neg nil, if_neg some] at body
  change memblockReserve env mb base size = _ at body
  rw [nesting, grow, ok_bind] at body
  rcases outcome with ⟨rfl, enough⟩ | ⟨rfl, addr, doubled⟩
  · right
    cases room with
    | true =>
        rw [missing_eq contents, cap] at fits
        exact absurd (enough rfl) fits
    | false => exact ⟨_, body, by decide⟩
  · left
    obtain ⟨l', contents'⟩ := (doubled.good.inv .reserved).contents
    have clear' := @Doubled.clear env mb mid good.inv base size addr (cap.symm ▸ doubled) clear
    have nil' : l' ≠ [] := by
      rintro rfl
      obtain ⟨x, reserved⟩ := contents.occupied nil
      obtain ⟨y, reserved', -⟩ := doubled.anchored ⟨x, by simpa using Option.isSome_iff_ne_none.mp reserved,
        fun on => absurd on (by simp [slab])⟩
      exact reserved' (contents'.lookup_eq y)
    have enough : (mid.type .reserved).cnt + pieces (base + memblockCapSize base size) l' base ≤
        (mid.type .reserved).max := by
      rw [← missing_eq contents', clear'.2]
      exact (Nat.add_le_add_left (one.trans (by decide)) _).trans (doubled.room good)
    have area : base + memblockCapSize base size ≤ physAddrMax := by rwa [cap]
    have length := contents'.length_le_cnt
    have edit : Edit .reserved (withRange base size Flags.none) mid (mid.setType .reserved _) :=
      .set contents' (contents'.added base area Flags.none) rfl rfl rfl
        (lookup_addedTo contents'.sound _ _ Flags.none)
    have inv : Inv (mid.setType .reserved _) := doubled.good.inv.setType .reserved
      (contents'.typeInv_added area Flags.none (doubled.good.inv .reserved).max_pos
        ((Nat.add_le_add_right length _).trans enough))
    have insert := contents'.addInsert nil' area Flags.none enough
    rw [cap] at insert
    simp only [if_true, insert, ok_bind] at body
    refine ⟨mid, _, ?_, .inr ⟨addr, doubled⟩, edit, inv⟩
    rw [cap]
    exact body

omit slab in
/-- Releasing a block succeeds, after at most one doubling, or changes nothing. -/
theorem free_reserved {base size : Nat} (pos : 0 < size) (high : base + size ≤ physAddrMax) :
    (∃ mid mb', memblockFree env mb base size = .ok (mb', 0) ∧ Settled env base size mb mid ∧
        Edit .reserved (withoutRange base size) mid mb' ∧ Inv mb') ∨
      ∃ ret, memblockFree env mb base size = .ok (mb, ret) ∧ ret ≠ 0 := by
  have cap : memblockCapSize base size = size := by
    unfold memblockCapSize
    omega
  have nonempty : memblockCapSize base size ≠ 0 := by omega
  obtain ⟨mid, room, grow, outcome⟩ := @growReserved_once env mb good apart held 1 base size 2 high le_rfl
  have body : memblockFree env mb base size = removeRangeWith (memblockDoubleArray env nesting) mb .reserved base size :=
    rfl
  rw [removeRangeWith, isolateRangeWith_eq, if_neg nonempty, cap, nesting, grow, ok_bind] at body
  cases room with
  | false =>
      right
      rcases outcome with ⟨rfl, -⟩ | ⟨no, -⟩
      · exact ⟨-enomem, by simpa [enomem] using body, by decide⟩
      · cases no
  | true =>
      left
      have state : Settled env base size mb mid := outcome.imp (fun same => same.1) (fun moved => moved.2)
      have inv : Inv mid := by
        rcases state with rfl | ⟨addr, doubled⟩
        · exact good.inv
        · exact doubled.good.inv
      have fits : (mid.type .reserved).cnt + 2 ≤ (mid.type .reserved).max := by
        rcases outcome with ⟨rfl, enough⟩ | ⟨-, addr, doubled⟩
        · exact enough rfl
        · exact doubled.room good
      obtain ⟨iso, startRgn, endRgn, l, cut, done⟩ := isolateCut_ok nonempty (inv .reserved) fits
      obtain ⟨edit, inv', -⟩ := cut.removed inv
      rw [cap] at done
      simp only [if_true, done, ok_bind] at body
      exact ⟨mid, _, body, state, edit, inv'⟩

end

end Miracle.Memblock
