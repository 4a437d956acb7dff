import Miracle.Memblock.Relocation

/-! # When a doubling is safe

`Good` is the representation invariant with the sizes that the arrays can have, and
`Apart` says that the blocks of the two arrays do not overlap.  As long as the arrays
lie in reserved memory a doubling keeps both.
-/

namespace Miracle.Memblock

open Extent

/-! ## Sizes and places of the arrays -/

/-- The array has been doubled a number of times from its static size. -/
structure Sized (t : MemblockType) : Prop where
  pow : ∃ k, 7 ≤ k ∧ k ≤ 58 ∧ t.max = 2 ^ k
  static : t.array = none → t.max = initMemblockRegions ∧ t.inSlab = false

theorem Sized.bounds {t : MemblockType} (h : Sized t) : 128 ≤ t.max ∧ t.max ≤ 2 ^ 58 := by
  obtain ⟨k, low, high, eq⟩ := h.pow
  rw [eq]
  exact ⟨Nat.pow_le_pow_right (by decide : 0 < 2) low, Nat.pow_le_pow_right (by decide) high⟩

theorem Sized.storage {t t' : MemblockType} (h : Sized t) (same : t'.storage = t.storage) :
    Sized t' := by
  simp only [MemblockType.storage, Prod.mk.injEq] at same
  obtain ⟨max, array, inSlab⟩ := same
  exact ⟨by rw [max]; exact h.pow, by rw [array, max, inSlab]; exact h.static⟩

theorem heldBlock_storage {t t' : MemblockType} (same : t'.storage = t.storage) :
    heldBlock t' = heldBlock t := by
  simp only [MemblockType.storage, Prod.mk.injEq] at same
  obtain ⟨max, array, inSlab⟩ := same
  simp only [heldBlock, max, array, inSlab]

theorem heldBlock_eq_some {t : MemblockType} {block : Nat × Nat} (h : heldBlock t = some block) :
    t.inSlab = false ∧ t.array = some block.1 ∧ block.2 = arrayAllocSize t.max := by
  obtain ⟨_, _, _, array, inSlab⟩ := t
  cases inSlab <;> cases array <;> simp [heldBlock] at h
  subst h
  exact ⟨rfl, rfl, rfl⟩

theorem arrayAllocSize_ge {max : Nat} (h : max ≤ 2 ^ 59) : max * sizeofRegion ≤ arrayAllocSize max := by
  refine le_pageAlign ?_
  simp only [sizeofRegion]
  omega

/-- All addresses of the interval are reserved. -/
def Covers (mb : State) (lo hi : Nat) : Prop := ∀ a, lo ≤ a → a < hi → mb.map .reserved a ≠ none

/-- The array of `ty` is the static one or lies in memory that is still reserved. -/
def Held (mb : State) (ty : TypeId) : Prop :=
  ∀ pa, (mb.type ty).array = some pa →
    (mb.type ty).inSlab = false ∧ Covers mb pa (pa + arrayAllocSize (mb.type ty).max)

/-- The blocks of the two arrays do not overlap. -/
def Apart (mb : State) : Prop :=
  ∀ m r, heldBlock (mb.type .memory) = some m → heldBlock (mb.type .reserved) = some r →
    m.1 + m.2 ≤ r.1 ∨ r.1 + r.2 ≤ m.1

/-- The invariant together with the sizes of the arrays. -/
structure Good (mb : State) : Prop where
  inv : Inv mb
  sized : ∀ ty, Sized (mb.type ty)

theorem Covers.le {mb : State} (inv : Inv mb) {lo hi : Nat} (h : Covers mb lo hi) (lt : lo < hi) :
    hi ≤ physAddrMax := by
  obtain ⟨l, contents⟩ := (inv .reserved).contents
  by_contra above
  refine h (hi - 1) (by omega) (by omega) ?_
  rw [State.map, contents.lookup_eq]
  exact contents.sound.lookup_above (by omega)

/-- A free interval and a reserved one are disjoint. -/
theorem Covers.disjoint {mb : State} {lo hi lo' hi' : Nat} (h : Covers mb lo hi)
    (free : ∀ a, lo' ≤ a → a < hi' → mb.map .reserved a = none) (lt : lo < hi) (lt' : lo' < hi') :
    hi ≤ lo' ∨ hi' ≤ lo := by
  by_contra overlap
  exact h (max lo lo') (by omega) (by omega) (free _ (by omega) (by omega))

theorem Good.edit {ty : TypeId} {f : AddrMap → AddrMap} {mb mb' : State} (h : Good mb)
    (edit : Edit ty f mb mb') (inv : Inv mb') : Good mb' :=
  ⟨inv, fun ty' => (h.sized ty').storage (edit.storage_eq ty')⟩

theorem Apart.edit {ty : TypeId} {f : AddrMap → AddrMap} {mb mb' : State} (h : Apart mb)
    (edit : Edit ty f mb mb') : Apart mb' := by
  intro m r hm hr
  rw [heldBlock_storage (edit.storage_eq .memory)] at hm
  rw [heldBlock_storage (edit.storage_eq .reserved)] at hr
  exact h m r hm hr

theorem Held.edit_memory {f : AddrMap → AddrMap} {mb mb' : State} {ty : TypeId} (h : Held mb ty)
    (edit : Edit .memory f mb mb') : Held mb' ty := by
  intro pa array
  have same := edit.storage_eq ty
  simp only [MemblockType.storage, Prod.mk.injEq] at same
  obtain ⟨max, array', inSlab⟩ := same
  rw [array'] at array
  rw [max, inSlab]
  obtain ⟨slab, covers⟩ := h pa array
  refine ⟨slab, fun a low high => ?_⟩
  rw [edit.map_of_ne (by decide)]
  exact covers a low high

/-! ## The new array -/

/-- No array is overwritten when that of `ty` is doubled for the area `[start, start + size)`:
    each lies in reserved memory, or in the area that the search for `reserved` avoids. -/
def Writable (env : Env) (mb : State) (ty : TypeId) (start size : Nat) : Prop :=
  mb.canResize = true → env.slabIsAvailable = false → ∀ ty', Held mb ty' ∨
    (ty = .reserved ∧ ty' = .memory ∧ start ≠ 0 ∧
      ∀ pa, (mb.type ty').array = some pa →
        start ≤ pa ∧ pa + arrayAllocSize (mb.type ty').max ≤ start + size)

section

variable {env : Env} {mb : State} {ty : TypeId} {start size : Nat} (good : Good mb)
  (slab : env.slabIsAvailable = false) (area : start + size ≤ physAddrMax)
  (found : findNewArray env mb ty start size ≠ 0)

include good slab area found

/-- The block that is found: free, large enough and outside the area. -/
theorem newArray_place :
    (mb.type ty).max * sizeofRegion * 2 ≤ arrayAllocSize ((mb.type ty).max * 2) ∧
      findNewArray env mb ty start size + arrayAllocSize ((mb.type ty).max * 2) ≤ physAddrMax ∧
      (∀ a, findNewArray env mb ty start size ≤ a →
        a < findNewArray env mb ty start size + arrayAllocSize ((mb.type ty).max * 2) →
        mb.map .reserved a = none) ∧
      (ty = .reserved → start ≠ 0 → start + size ≤ findNewArray env mb ty start size ∨
        findNewArray env mb ty start size + arrayAllocSize ((mb.type ty).max * 2) ≤ start) := by
  obtain ⟨low, high⟩ := (good.sized ty).bounds
  have large : (mb.type ty).max * sizeofRegion * 2 ≤ arrayAllocSize ((mb.type ty).max * 2) := by
    have := arrayAllocSize_ge (by omega : (mb.type ty).max * 2 ≤ 2 ^ 59)
    simp only [sizeofRegion] at *
    omega
  have pos : 0 < pageAlign ((mb.type ty).max * sizeofRegion * 2) := by
    rw [← arrayAllocSize_double]
    simp only [sizeofRegion] at *
    omega
  obtain ⟨gap, avoid⟩ := findNewArray_spec env slab mb ty area pos found
  rw [← arrayAllocSize_double] at gap avoid
  exact ⟨large, gap.1, fun a low high => gap.free (good.inv .reserved) low high, avoid⟩

theorem not_coversArray {ty' : TypeId}
    (safe : Held mb ty' ∨ (ty = .reserved ∧ ty' = .memory ∧ start ≠ 0 ∧
      ∀ pa, (mb.type ty').array = some pa →
        start ≤ pa ∧ pa + arrayAllocSize (mb.type ty').max ≤ start + size)) :
    ¬ coversArray (findNewArray env mb ty start size) ((mb.type ty).max * sizeofRegion * 2)
      (mb.type ty') = true := by
  obtain ⟨large, -, free, avoid⟩ := newArray_place good slab area found
  obtain ⟨low, high⟩ := (good.sized ty').bounds
  have := (good.sized ty).bounds
  have size' := arrayAllocSize_ge (by omega : (mb.type ty').max ≤ 2 ^ 59)
  unfold coversArray
  cases array : (mb.type ty').array with
  | none => simp
  | some pa =>
      simp only [decide_eq_true_eq]
      simp only [sizeofRegion] at *
      rcases safe with held | ⟨reserved, -, nonzero, inside⟩
      · have := (held pa array).2.disjoint free (by omega) (by omega)
        omega
      · have := inside pa array
        have := avoid reserved nonzero
        omega

theorem not_overruns (safe : ∀ ty', Held mb ty' ∨ (ty = .reserved ∧ ty' = .memory ∧ start ≠ 0 ∧
      ∀ pa, (mb.type ty').array = some pa →
        start ≤ pa ∧ pa + arrayAllocSize (mb.type ty').max ≤ start + size)) :
    ¬ overruns mb (findNewArray env mb ty start size) ((mb.type ty).max * sizeofRegion * 2) = true := by
  intro bad
  have large := (newArray_place good slab area found).1
  rw [arrayAllocSize_double] at large
  simp only [overruns, Bool.or_eq_true, decide_eq_true_eq] at bad
  rcases bad with (small | memory) | reserved
  · omega
  · exact not_coversArray good slab area found (safe .memory) memory
  · exact not_coversArray good slab area found (safe .reserved) reserved

/-- The old array and the free block for the new one both fit below the end of memory. -/
theorem newArray_pow (own : Held mb ty) : ∃ k, 7 ≤ k ∧ k ≤ 58 ∧ (mb.type ty).max * 2 = 2 ^ k := by
  obtain ⟨large, high, free, -⟩ := newArray_place good slab area found
  obtain ⟨k, low, top, eq⟩ := (good.sized ty).pow
  refine ⟨k + 1, by omega, ?_, by rw [eq, pow_succ]⟩
  by_contra full
  have last : k = 58 := by omega
  rw [last] at eq
  cases array : (mb.type ty).array with
  | none =>
      have := ((good.sized ty).static array).1
      rw [eq] at this
      exact absurd this (by decide)
  | some pa =>
      have covers := (own pa array).2
      have size' := arrayAllocSize_ge (by omega : (mb.type ty).max ≤ 2 ^ 59)
      have bound := covers.le good.inv (by simp only [sizeofRegion] at size'; omega)
      have := covers.disjoint free (by simp only [sizeofRegion] at size'; omega)
        (by simp only [sizeofRegion] at large; omega)
      simp only [sizeofRegion, physAddrMax] at *
      omega

end

theorem kmalloc_pow {env : Env} {mb : State} {ty : TypeId} {start size : Nat} (good : Good mb)
    (slab : env.slabIsAvailable = true) (found : findNewArray env mb ty start size ≠ 0) :
    ∃ k, 7 ≤ k ∧ k ≤ 58 ∧ (mb.type ty).max * 2 = 2 ^ k := by
  simp only [findNewArray, slab, if_true] at found
  have small := env.kmalloc_le _ _ found
  obtain ⟨k, low, top, eq⟩ := (good.sized ty).pow
  refine ⟨k + 1, by omega, ?_, by rw [eq, pow_succ]⟩
  by_contra full
  have last : k = 58 := by omega
  rw [eq, last] at small
  simp only [sizeofRegion, kmallocMaxSize] at small
  omega

theorem claimBlock_ne_none {env : Env} {addr max : Nat} {m : AddrMap} {a : Nat} (h : m a ≠ none) :
    claimBlock env addr max m a ≠ none := by
  unfold claimBlock
  split
  · exact h
  · intro none
    exact h (Option.or_eq_none_iff.mp none).1

theorem releaseBlock_of_outside {t : MemblockType} {m : AddrMap} {a : Nat}
    (out : ∀ block, heldBlock t = some block → ¬ (block.1 ≤ a ∧ a < block.1 + block.2)) :
    releaseBlock t m a = m a := by
  unfold releaseBlock
  cases held : heldBlock t with
  | none => rfl
  | some block =>
      refine if_neg (fun inside => out block held ?_)
      have := inside.2
      unfold memblockCapSize at this
      exact ⟨inside.1, by omega⟩

section

variable {env : Env} {mb mb' : State} {ty : TypeId} {addr : Nat} (apart : Apart mb)
  (moved : Relocated env ty addr mb mb')

include moved

theorem Relocated.storage_fields :
    (mb'.type ty).max = (mb.type ty).max * 2 ∧ (mb'.type ty).array = some addr ∧
      (mb'.type ty).inSlab = env.slabIsAvailable := by
  have same := moved.storage
  simp only [MemblockType.storage, Prod.mk.injEq] at same
  exact same

/-- The array that moved lies in the block that was reserved for it. -/
theorem Relocated.held_self (slab : env.slabIsAvailable = false)
    (high : addr + arrayAllocSize ((mb.type ty).max * 2) ≤ physAddrMax) : Held mb' ty := by
  obtain ⟨max, array, inSlab⟩ := moved.storage_fields
  intro pa at_
  rw [array] at at_
  cases at_
  refine ⟨inSlab.trans slab, fun a low top => ?_⟩
  rw [max] at top
  have inside : InRange addr (arrayAllocSize ((mb.type ty).max * 2)) a := by
    simp only [InRange, memblockCapSize]
    omega
  rw [moved.map_eq]
  simp only [claimBlock, slab, Bool.false_eq_true, if_false, withRange, if_pos inside]
  cases releaseBlock (mb.type ty) (mb.map .reserved) a <;> simp

include apart

/-- The other array stays in reserved memory. -/
theorem Relocated.held_other {ty' : TypeId} (ne : ty' ≠ ty) (held : Held mb ty') : Held mb' ty' := by
  intro pa array
  have same := moved.other ty' ne
  have blocks := heldBlock_storage same
  simp only [MemblockType.storage, Prod.mk.injEq] at same
  obtain ⟨max, array', inSlab⟩ := same
  rw [array'] at array
  rw [max, inSlab]
  obtain ⟨slab, covers⟩ := held pa array
  have mine : heldBlock (mb.type ty') = some (pa, arrayAllocSize (mb.type ty').max) := by
    simp only [heldBlock, slab, array]
  refine ⟨slab, fun a low high => ?_⟩
  rw [moved.map_eq]
  refine claimBlock_ne_none ?_
  rw [releaseBlock_of_outside]
  · exact covers a low high
  · intro block theirs inside
    cases ty with
    | memory =>
        obtain rfl : ty' = .reserved := by cases ty' <;> simp_all
        have := apart _ _ theirs mine
        omega
    | reserved =>
        obtain rfl : ty' = .memory := by cases ty' <;> simp_all
        have := apart _ _ mine theirs
        omega

end

/-- A doubling of `ty` for the area `[start, start + size)` that has succeeded. -/
structure Doubled (env : Env) (ty : TypeId) (start size addr : Nat) (mb mb' : State) : Prop where
  good : Good mb'
  apart : Apart mb'
  moved : Relocated env ty addr mb mb'
  writable : Writable env mb' ty start size
  place : env.slabIsAvailable = false →
    0 < addr ∧ addr + arrayAllocSize ((mb.type ty).max * 2) ≤ physAddrMax ∧
    (∀ a, addr ≤ a → a < addr + arrayAllocSize ((mb.type ty).max * 2) → mb.map .reserved a = none) ∧
    (ty = .reserved → start ≠ 0 →
      start + size ≤ addr ∨ addr + arrayAllocSize ((mb.type ty).max * 2) ≤ start)
  held : env.slabIsAvailable = false → Held mb' ty ∧ ∀ ty', Held mb ty' → Held mb' ty'

theorem State.canResize_of_settings {mb mb' : State} (h : mb'.settings = mb.settings) :
    mb'.canResize = mb.canResize := congrArg (fun s => s.2.2) h

theorem heldBlock_slab {t : MemblockType} (h : t.inSlab = true) : heldBlock t = none := by
  obtain ⟨_, _, _, array, inSlab⟩ := t
  simp only at h
  subst h
  rfl

/-- The blocks stay apart: the new one was free, the other one is reserved or in the area. -/
theorem Relocated.apart {env : Env} {mb mb' : State} {ty : TypeId} {start size : Nat} (good : Good mb)
    (area : start + size ≤ physAddrMax) (found : findNewArray env mb ty start size ≠ 0)
    (moved : Relocated env ty (findNewArray env mb ty start size) mb mb')
    (safe : env.slabIsAvailable = false → ∀ ty', Held mb ty' ∨
      (ty = .reserved ∧ ty' = .memory ∧ start ≠ 0 ∧ ∀ pa, (mb.type ty').array = some pa →
        start ≤ pa ∧ pa + arrayAllocSize (mb.type ty').max ≤ start + size)) : Apart mb' := by
  obtain ⟨max, array, inSlab⟩ := moved.storage_fields
  by_cases slab : env.slabIsAvailable = true
  · have gone := heldBlock_slab (inSlab.trans slab)
    intro m r hm hr
    cases ty with
    | memory => rw [gone] at hm; cases hm
    | reserved => rw [gone] at hr; cases hr
  · have slab : env.slabIsAvailable = false := by simpa using slab
    obtain ⟨large, -, free, avoid⟩ := newArray_place good slab area found
    have low := (good.sized ty).bounds
    have new : heldBlock (mb'.type ty) = some (findNewArray env mb ty start size,
        arrayAllocSize ((mb.type ty).max * 2)) := by
      simp only [heldBlock, inSlab, slab, array, max]
    -- the block of the other array does not meet the new one
    have other {ty' : TypeId} (ne : ty' ≠ ty) {block : Nat × Nat}
        (theirs : heldBlock (mb'.type ty') = some block) :
        block.1 + block.2 ≤ findNewArray env mb ty start size ∨
          findNewArray env mb ty start size + arrayAllocSize ((mb.type ty).max * 2) ≤ block.1 := by
      rw [heldBlock_storage (moved.other ty' ne)] at theirs
      obtain ⟨-, at_, size'⟩ := heldBlock_eq_some theirs
      have := (good.sized ty').bounds
      have := arrayAllocSize_ge (by omega : (mb.type ty').max ≤ 2 ^ 59)
      simp only [sizeofRegion] at *
      rcases safe slab ty' with held | ⟨reserved, -, nonzero, inside⟩
      · have := (held _ at_).2.disjoint free (by omega) (by omega)
        omega
      · have := inside _ at_
        have := avoid reserved nonzero
        omega
    intro m r hm hr
    cases ty with
    | memory =>
        cases new.symm.trans hm
        have := other (by decide) hr
        omega
    | reserved =>
        cases new.symm.trans hr
        exact other (by decide) hm

theorem double_safe (env : Env) (depth : Nat) {mb : State} (good : Good mb)
    (apart : env.slabIsAvailable = false → Apart mb) (ty : TypeId) {start size : Nat} (area : start + size ≤ physAddrMax)
    (room : ty = .memory → mb.reserved.cnt + 2 ≤ mb.reserved.max)
    (writable : Writable env mb ty start size) :
    ∃ mb' ret, memblockDoubleArray env (depth + 1) mb ty start size = .ok (mb', ret) ∧
      ((ret = -1 ∧ mb' = mb) ∨
        (ret = 0 ∧ ∃ addr, Doubled env ty start size addr mb mb')) := by
  by_cases fixed : mb.canResize = false
  · refine ⟨mb, -1, ?_, .inl ⟨rfl, rfl⟩⟩
    rw [doubleArray_eq, if_pos fixed]
  have resize : mb.canResize = true := by simpa using fixed
  have safe := writable resize
  have := (good.sized ty).bounds
  obtain ⟨mb', ret, done, outcome⟩ := doubleArray_room env depth good.inv ty area (by omega) room
    (fun slab found => not_overruns good slab area found (safe slab))
  refine ⟨mb', ret, done, ?_⟩
  rcases outcome with failed | ⟨zero, found, moved⟩
  · exact .inl failed
  refine .inr ⟨zero, findNewArray env mb ty start size, ?_⟩
  have held (slab : env.slabIsAvailable = false) :
      Held mb' ty ∧ ∀ ty', Held mb ty' → Held mb' ty' := by
    have self := moved.held_self slab (newArray_place good slab area found).2.1
    refine ⟨self, fun ty' old => ?_⟩
    by_cases same : ty' = ty
    · exact same ▸ self
    · exact moved.held_other (apart slab) same old
  refine ⟨⟨moved.inv, ?_⟩, moved.apart good area found safe, moved, ?_, ?_, held⟩
  · -- the sizes
    intro ty'
    by_cases same : ty' = ty
    · subst same
      obtain ⟨max, array, -⟩ := moved.storage_fields
      refine ⟨?_, fun none => by rw [array] at none; cases none⟩
      rw [max]
      by_cases slab : env.slabIsAvailable = true
      · exact kmalloc_pow good slab found
      · have slab : env.slabIsAvailable = false := by simpa using slab
        rcases safe slab ty' with own | ⟨reserved, memory, -⟩
        · exact newArray_pow good slab area found own
        · cases reserved.symm.trans memory
    · exact (good.sized ty').storage (moved.other ty' same)
  · intro _ slab ty'
    by_cases same : ty' = ty
    · exact .inl (same ▸ (held slab).1)
    · rcases safe slab ty' with old | ⟨reserved, memory, nonzero, inside⟩
      · exact .inl ((held slab).2 ty' old)
      · have storage := moved.other ty' same
        simp only [MemblockType.storage, Prod.mk.injEq] at storage
        obtain ⟨max, array, -⟩ := storage
        exact .inr ⟨reserved, memory, nonzero, by rw [array, max]; exact inside⟩
  · intro slab
    obtain ⟨-, high, free, avoid⟩ := newArray_place good slab area found
    exact ⟨by omega, high, free, avoid⟩

end Miracle.Memblock
