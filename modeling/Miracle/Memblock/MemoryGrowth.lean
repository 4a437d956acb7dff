import Miracle.Memblock.Progress

/-! # Growth of the `memory` array

Doubling `memory` exchanges two blocks of `reserved` and may have to double that array
on the way.  The `BUG_ON` of `memblock_double_array` itself is then the only one left.
-/

namespace Miracle.Memblock

open Extent

/-- The one `BUG_ON` that a growth of `memory` can reach. -/
def InDoubleArray (bug : Bug) : Prop := bug = .doubleArray

/-- A doubling of `memory` that has succeeded. -/
structure MemoryDoubled (env : Env) (mb mb' : State) : Prop where
  good : Good mb'
  apart : Apart mb'
  regions : mb'.memory.regions = mb.memory.regions
  max_eq : mb'.memory.max = mb.memory.max * 2
  settings : mb'.settings = mb.settings
  ready : Ready env mb'
  room : mb.reserved.cnt + 2 ≤ mb.reserved.max →
    mb'.reserved.cnt ≤ mb.reserved.cnt + 2 ∧ mb'.reserved.max = mb.reserved.max

theorem Doubled.memory {env : Env} {mb mb' : State} {start size addr : Nat} (ready : Ready env mb)
    (doubled : Doubled env .memory start size addr mb mb') : MemoryDoubled env mb mb' :=
  ⟨doubled.good, doubled.apart, doubled.moved.regions, doubled.moved.storage_fields.1,
    doubled.moved.settings, ready.doubled doubled,
    fun _ => ⟨doubled.moved.cnt_le, congrArg Prod.fst (doubled.moved.other .reserved (by decide))⟩⟩

theorem good_grown {mb : State} (good : Good mb) (addr : Nat)
    (pow : ∃ k, 7 ≤ k ∧ k ≤ 58 ∧ mb.memory.max * 2 = 2 ^ k) :
    Good (mb.setType .memory (grown mb.memory addr)) := by
  refine ⟨inv_grown good.inv .memory addr, fun ty => ?_⟩
  cases ty with
  | memory => exact ⟨pow, by simp [State.setType, State.type, grown]⟩
  | reserved => exact good.sized .reserved

section

variable {env : Env} (depth : Nat) {mb : State} (good : Good mb) {start size : Nat}
  (full : ¬ mb.reserved.cnt + 2 ≤ mb.reserved.max)

include good full

/-- With the slab the old block may need room in `reserved`, and nothing is reserved. -/
theorem doubleMemory_slab (slab : env.slabIsAvailable = true)
    (found : findNewArray env mb .memory start size ≠ 0) (resize : ¬ mb.canResize = false) :
    Outcome InDoubleArray (fun r => r.2 = 0 ∧ MemoryDoubled env mb r.1)
      (memblockDoubleArray env (depth + 2) mb .memory start size) := by
  have clean : ¬ (env.slabIsAvailable = false ∧ overruns mb (findNewArray env mb .memory start size)
      ((mb.type .memory).max * sizeofRegion * 2) = true) := by simp [slab]
  rw [doubleArray_eq, if_neg resize, if_neg found, if_neg clean]
  have good1 := good_grown good (findNewArray env mb .memory start size) (kmalloc_pow good slab found)
  generalize findNewArray env mb .memory start size = addr at *
  obtain ⟨base, freed, free, state⟩ : ∃ base freed,
      freeOldArray (memblockDoubleArray env (depth + 1))
        (mb.setType .memory (grown mb.memory addr)) mb.memory = .ok freed ∧
      Freed base (mb.setType .memory (grown mb.memory addr)) freed := by
    rw [freeOldArray_eq]
    cases heldBlock mb.memory with
    | none => exact ⟨0, _, rfl, .refl good1 0⟩
    | some block =>
        obtain ⟨freed, ret, done, state⟩ := removeReserved_safe env depth good1
          (by simp [slab]) block.1 block.2 (fun _ _ off => by simp [slab] at off)
        exact ⟨block.1, freed, by simp only [done, ok_bind], state⟩
  have reserve : reserveNewArray env (memblockDoubleArray env (depth + 1)) freed addr
      (mb.memory.max * 2) = .ok freed := if_pos slab
  have storage := state.storage
  simp only [MemblockType.storage, State.type_setType, grown, Prod.mk.injEq] at storage
  show Outcome _ _ (freeOldArray _ (mb.setType .memory (grown mb.memory addr)) mb.memory >>= _)
  rw [free, ok_bind]
  show Outcome _ _ (reserveNewArray _ _ _ _ (mb.memory.max * 2) >>= _)
  rw [reserve, ok_bind]
  refine ⟨rfl, ⟨inv_inSlab state.good.inv .memory _, fun ty => ?_⟩, ?_, state.regions, storage.1, ?_,
    fun _ off => by simp [slab] at off, fun room => absurd room full⟩
  · cases ty with
    | memory =>
        refine ⟨(state.good.sized .memory).pow, fun none => ?_⟩
        cases storage.2.1.symm.trans none
    | reserved => exact state.good.sized .reserved
  · intro m r held
    rw [heldBlock_slab (by simpa using slab)] at held
    cases held
  · rw [State.settings_setType, state.settings, State.settings_setType]

/-- The static array has no block to release, and the block of the new one keeps clear of
    that of `reserved`. -/
theorem doubleMemory_static (slab : env.slabIsAvailable = false) (ready : Ready env mb)
    (area : start + size ≤ physAddrMax) (static : mb.memory.array = none)
    (found : findNewArray env mb .memory start size ≠ 0) (resize : ¬ mb.canResize = false) :
    Outcome InDoubleArray (fun r => r.2 = 0 ∧ MemoryDoubled env mb r.1)
      (memblockDoubleArray env (depth + 2) mb .memory start size) := by
  have resizes : mb.canResize = true := by simpa using resize
  have held := ready resizes slab
  have clean : ¬ (env.slabIsAvailable = false ∧ overruns mb (findNewArray env mb .memory start size)
      ((mb.type .memory).max * sizeofRegion * 2) = true) :=
    fun bad => not_overruns good slab area found (fun ty => .inl (held ty)) bad.2
  rw [doubleArray_eq, if_neg resize, if_neg found, if_neg clean]
  have good1 := good_grown good (findNewArray env mb .memory start size)
    (newArray_pow good slab area found (held .memory))
  obtain ⟨large, high, free, -⟩ := newArray_place good slab area found
  generalize findNewArray env mb .memory start size = addr at *
  have notSlab : mb.memory.inSlab = false := ((good.sized .memory).static static).2
  have freed : freeOldArray (memblockDoubleArray env (depth + 1))
      (mb.setType .memory (grown mb.memory addr)) mb.memory =
        .ok (mb.setType .memory (grown mb.memory addr)) := by
    simp [freeOldArray_eq, heldBlock, static, notSlab]
  have size : memblockCapSize addr (arrayAllocSize (mb.memory.max * 2)) =
      arrayAllocSize (mb.memory.max * 2) := by
    have : addr + arrayAllocSize (mb.memory.max * 2) ≤ physAddrMax := high
    unfold memblockCapSize
    omega
  -- the block of `reserved` is covered, the new one is free
  have clear : ∀ block, heldBlock mb.reserved = some block →
      addr + arrayAllocSize (mb.memory.max * 2) ≤ block.1 ∨ block.1 + block.2 ≤ addr := by
    intro block theirs
    obtain ⟨-, at_, size'⟩ := heldBlock_eq_some theirs
    have := (good.sized .reserved).bounds
    have := arrayAllocSize_ge (by omega : (mb.type .reserved).max ≤ 2 ^ 59)
    have low := (good.sized .memory).bounds
    have covers := (held .reserved _ at_).2
    have : arrayAllocSize mb.reserved.max = arrayAllocSize (mb.type .reserved).max := rfl
    have : (mb.type .memory).max * sizeofRegion * 2 ≤ arrayAllocSize (mb.memory.max * 2) := large
    simp only [sizeofRegion] at *
    have := covers.disjoint free (by omega)
      (by show addr < addr + arrayAllocSize (mb.memory.max * 2); omega)
    have : addr + arrayAllocSize ((mb.type .memory).max * 2) =
      addr + arrayAllocSize (mb.memory.max * 2) := rfl
    omega
  have apart1 : Apart (mb.setType .memory (grown mb.memory addr)) := by
    intro m r mine theirs
    have block : heldBlock (grown mb.memory addr) = some (addr, arrayAllocSize (mb.memory.max * 2)) := by
      simp only [heldBlock, grown, notSlab]
    cases block.symm.trans mine
    have := clear r theirs
    omega
  have held1 : Held (mb.setType .memory (grown mb.memory addr)) .reserved := held .reserved
  obtain ⟨mb', ret, reserve, kept, outcome⟩ := addReserved_safe env depth good1 (fun _ => apart1) addr
    (arrayAllocSize (mb.memory.max * 2)) Flags.none (fun _ => by
      refine ⟨fun _ _ ty => ?_, .inr ⟨.inr found, ?_⟩, by simp [slab]⟩
      · cases ty with
        | memory =>
            refine .inr ⟨rfl, rfl, found, fun pa at_ => ?_⟩
            cases at_
            rw [size]
            exact ⟨le_rfl, le_rfl⟩
        | reserved => exact .inl held1
      · rw [size]
        exact clear)
  show Outcome _ _ (freeOldArray _ (mb.setType .memory (grown mb.memory addr)) mb.memory >>= _)
  rw [freed, ok_bind]
  show Outcome _ _ (reserveNewArray _ _ _ _ (mb.memory.max * 2) >>= _)
  rw [reserveNewArray, if_neg (by simp [slab]), reserve, ok_bind]
  rcases outcome with ⟨rfl, covered⟩ | rfl
  · have storage := kept.storage
    simp only [MemblockType.storage, State.type_setType, grown, Prod.mk.injEq] at storage
    obtain ⟨max, array, inSlab⟩ := storage
    have same : mb'.setType .memory { mb'.type .memory with inSlab := env.slabIsAvailable } = mb' := by
      rw [slab, ← notSlab, ← inSlab]
      exact State.setType_type mb' .memory
    show Outcome _ _ (.ok (mb'.setType .memory _, 0))
    rw [same]
    refine ⟨rfl, kept.good, kept.apart apart1, kept.regions, max, ?_, fun _ _ ty => ?_,
      fun room => absurd room full⟩
    · rw [kept.settings, State.settings_setType]
    · cases ty with
      | memory =>
          intro pa at_
          cases array.symm.trans at_
          refine ⟨inSlab.trans notSlab, fun a low top => covered a ⟨low, ?_⟩⟩
          rwa [size, ← max]
      | reserved => exact kept.held slab .reserved held1
  · rfl

end

/-- A doubling of `memory` when the arrays are in reserved memory and either `reserved`
    has room, or the slab is in use, or there is no old block. -/
theorem doubleMemory_safe (env : Env) (depth : Nat) {mb : State} (good : Good mb) (apart : Apart mb)
    (ready : Ready env mb) {start size : Nat} (area : start + size ≤ physAddrMax)
    (room : env.slabIsAvailable = true ∨ mb.reserved.cnt + 2 ≤ mb.reserved.max ∨
      mb.memory.array = none) :
    Outcome InDoubleArray (fun r => (r.2 = -1 ∧ r.1 = mb) ∨ (r.2 = 0 ∧ MemoryDoubled env mb r.1))
      (memblockDoubleArray env (depth + 2) mb .memory start size) := by
  by_cases fits : mb.reserved.cnt + 2 ≤ mb.reserved.max
  · obtain ⟨mb', ret, done, outcome⟩ := double_safe env (depth + 1) good (fun _ => apart) .memory area
      (fun _ => fits) (ready.writable _ _ _)
    rw [done]
    rcases outcome with failed | ⟨zero, addr, doubled⟩
    · exact .inl failed
    · exact .inr ⟨zero, doubled.memory ready⟩
  by_cases fixed : mb.canResize = false
  · rw [doubleArray_eq, if_pos fixed]
    exact .inl ⟨rfl, rfl⟩
  by_cases missed : findNewArray env mb .memory start size = 0
  · rw [doubleArray_eq, if_neg fixed, if_pos missed]
    exact .inl ⟨rfl, rfl⟩
  by_cases slab : env.slabIsAvailable = true
  · exact (doubleMemory_slab depth good fits slab missed fixed).mono (fun _ => .inr)
  · have slab' : env.slabIsAvailable = false := by simpa using slab
    have static : mb.memory.array = none := (room.resolve_left slab).resolve_left fits
    exact (doubleMemory_static depth good fits slab' ready area static missed fixed).mono (fun _ => .inr)

/-! ## The growing loop for `memory` -/

/-- When the doublings of `memory` for `need` more regions go well: the slab is in use, or
    `reserved` has room for all the blocks that change hands, or the static array is
    doubled once. -/
def MemoryOk (env : Env) (mb : State) (need : Nat) : Prop :=
  env.slabIsAvailable = true ∨ mb.reserved.cnt + 4 ≤ mb.reserved.max ∨
    (mb.memory.cnt + need ≤ 2 * mb.memory.max ∧
      (mb.reserved.cnt + 2 ≤ mb.reserved.max ∨ mb.memory.array = none))

/-- The state of the growing loop after `i` doublings of `memory`. -/
structure MemoryGrowing (env : Env) (mb : State) (i : Nat) (mid : State) : Prop where
  good : Good mid
  apart : Apart mid
  regions : mid.memory.regions = mb.memory.regions
  max_eq : mid.memory.max = mb.memory.max * 2 ^ i
  settings : mid.settings = mb.settings
  ready : Ready env mid
  start : i = 0 → mid = mb
  room : mb.reserved.cnt + 2 * i ≤ mb.reserved.max →
    mid.reserved.cnt ≤ mb.reserved.cnt + 2 * i ∧ mid.reserved.max = mb.reserved.max

theorem MemoryGrowing.step {env : Env} {mb mid mid' : State} {i : Nat}
    (h : MemoryGrowing env mb i mid) (doubled : MemoryDoubled env mid mid') :
    MemoryGrowing env mb (i + 1) mid' := by
  refine ⟨doubled.good, doubled.apart, doubled.regions.trans h.regions, ?_,
    doubled.settings.trans h.settings, doubled.ready, by simp, fun fits => ?_⟩
  · rw [doubled.max_eq, h.max_eq, pow_succ, Nat.mul_assoc]
  · obtain ⟨cnt, max⟩ := h.room (by omega)
    obtain ⟨cnt', max'⟩ := doubled.room (by omega)
    omega

/-- The growth before an update of `memory`. -/
theorem growMemory_safe (env : Env) (depth : Nat) {mb : State} (good : Good mb) (apart : Apart mb)
    (ready : Ready env mb) {need start size : Nat} (area : start + size ≤ physAddrMax)
    (few : need ≤ mb.memory.max + 1) (ok : MemoryOk env mb need) :
    Outcome InDoubleArray (fun r => (∃ i, MemoryGrowing env mb i r.1) ∧
        (r.2 = true → r.1.memory.cnt + need ≤ r.1.memory.max))
      (growWhile (memblockDoubleArray env (depth + 2)) .memory need start size growRounds mb) := by
  have first : MemoryGrowing env mb 0 mb :=
    ⟨good, apart, rfl, by simp, rfl, ready, fun _ => rfl, fun _ => ⟨by omega, rfl⟩⟩
  have step (n i : Nat) (lt : i < n) (le : n ≤ 2) (enough : env.slabIsAvailable = true ∨
      mb.reserved.cnt + 2 * n ≤ mb.reserved.max ∨ (i = 0 ∧ mb.memory.array = none)) (mid : State)
      (h : MemoryGrowing env mb i mid) : Outcome InDoubleArray
        (fun r => (r.2 < 0 ∧ r.1 = mid) ∨ (r.2 = 0 ∧ MemoryGrowing env mb (i + 1) r.1))
        (memblockDoubleArray env (depth + 2) mid .memory start size) := by
    have room : env.slabIsAvailable = true ∨ mid.reserved.cnt + 2 ≤ mid.reserved.max ∨
        mid.memory.array = none := by
      rcases enough with slab | margin | ⟨zero, static⟩
      · exact .inl slab
      · obtain ⟨cnt, max⟩ := h.room (by omega)
        exact .inr (.inl (by omega))
      · exact .inr (.inr (h.start zero ▸ static))
    refine (doubleMemory_safe env depth h.good h.apart h.ready area room).mono ?_
    rintro r (⟨neg, same⟩ | ⟨zero, doubled⟩)
    · exact .inl ⟨by simp [neg], same⟩
    · exact .inr ⟨zero, h.step doubled⟩
  have cnt {i : Nat} {mid : State} (h : MemoryGrowing env mb i mid) :
      mid.memory.cnt = mb.memory.cnt := congrArg List.length h.regions
  have fits : mb.memory.cnt ≤ mb.memory.max := (good.inv .memory).cnt_le
  have large : 128 ≤ mb.memory.max := (good.sized .memory).bounds.1
  have finish {n : Nat} {r : State × Bool} (h : (∃ j ≤ n, MemoryGrowing env mb j r.1) ∧
      (r.2 = true → (r.1.type .memory).cnt + need ≤ (r.1.type .memory).max)) :
      (∃ i, MemoryGrowing env mb i r.1) ∧ (r.2 = true → r.1.memory.cnt + need ≤ r.1.memory.max) := by
    obtain ⟨⟨j, -, state⟩, room⟩ := h
    exact ⟨⟨j, state⟩, room⟩
  by_cases once : mb.memory.cnt + need ≤ 2 * mb.memory.max
  · have enough : env.slabIsAvailable = true ∨ mb.reserved.cnt + 2 * 1 ≤ mb.reserved.max ∨
        mb.memory.array = none := by
      rcases ok with slab | margin | ⟨-, room | static⟩
      · exact .inl slab
      · exact .inr (.inl (by omega))
      · exact .inr (.inl room)
      · exact .inr (.inr static)
    refine (growWhile_rounds 1 (MemoryGrowing env mb)
      (fun i lt => step 1 i lt (by decide) (by
        rcases enough with slab | room | static
        · exact .inl slab
        · exact .inr (.inl room)
        · exact .inr (.inr ⟨by omega, static⟩)))
      (fun mid h => ?_) (Nat.zero_le 1) (by decide : 1 < growRounds + 0) first).mono (fun _ => finish)
    have := cnt h
    have := h.max_eq
    show mid.memory.cnt + need ≤ mid.memory.max
    omega
  · have enough : env.slabIsAvailable = true ∨ mb.reserved.cnt + 2 * 2 ≤ mb.reserved.max := by
      rcases ok with slab | margin | ⟨absurd', -⟩
      · exact .inl slab
      · exact .inr margin
      · exact absurd absurd' once
    refine (growWhile_rounds 2 (MemoryGrowing env mb)
      (fun i lt => step 2 i lt le_rfl (by
        rcases enough with slab | room
        · exact .inl slab
        · exact .inr (.inl room)))
      (fun mid h => ?_) (Nat.zero_le 2) (by decide : 2 < growRounds + 0) first).mono (fun _ => finish)
    have := cnt h
    have := h.max_eq
    show mid.memory.cnt + need ≤ mid.memory.max
    omega

end Miracle.Memblock
