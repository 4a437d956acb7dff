import Miracle.Memblock.Growth

/-! # Doublings that cannot fail

When the arrays lie in reserved memory and `reserved` has room for the two blocks
that change hands, a doubling stops at no `BUG_ON` and writes over no array.  This
module also has the arithmetic of the array sizes.
-/

namespace Miracle.Memblock

open Extent

/-! ## Page alignment -/

theorem and_pageMask {x : Nat} (h : x < 2 ^ 64) : x &&& (2 ^ 64 - 2 ^ 12) = x / 2 ^ 12 * 2 ^ 12 := by
  have mask : 2 ^ 64 - 2 ^ 12 = (2 ^ 52 - 1) <<< 12 := by decide
  apply Nat.eq_of_testBit_eq
  intro i
  rw [mask, Nat.testBit_and, Nat.testBit_shiftLeft, ← Nat.shiftRight_eq_div_pow,
    ← Nat.shiftLeft_eq, Nat.testBit_shiftLeft, Nat.testBit_shiftRight, Nat.testBit_two_pow_sub_one]
  by_cases low : 12 ≤ i
  · by_cases high : i - 12 < 52
    · simp [low, high, Nat.add_sub_of_le low]
    · have : x.testBit i = false := Nat.testBit_lt_two_pow (h.trans_le (Nat.pow_le_pow_right (by decide) (by omega)))
      simp [low, high, this, Nat.add_sub_of_le low]
  · simp [low]

theorem pageAlign_eq {n : Nat} (h : n + 4095 < 2 ^ 64) : pageAlign n = (n + 4095) / 4096 * 4096 := by
  have mask : physAddrMax - u64Sub pageSize 1 = 2 ^ 64 - 2 ^ 12 := by decide
  rw [pageAlign, roundDown, mask, u64_of_lt (by simpa [pageSize] using h), and_pageMask (by simpa [pageSize] using h)]
  rfl

theorem le_pageAlign {n : Nat} (h : n + 4095 < 2 ^ 64) : n ≤ pageAlign n := by
  rw [pageAlign_eq h]
  omega

/-! ## Updates that need no doubling -/

theorem growWhile_fits {double : Doubling} {mb : State} {ty : TypeId} {need : Nat}
    (fits : (mb.type ty).cnt + need ≤ (mb.type ty).max) (start size fuel : Nat) :
    growWhile double ty need start size (fuel + 1) mb = .ok (mb, true) := by
  simp only [growWhile, gt_iff_lt, if_neg (Nat.not_lt.mpr fits)]
  rfl

theorem removeRangeWith_fits (double : Doubling) {mb : State} (inv : Inv mb) (ty : TypeId)
    (fits : (mb.type ty).cnt + 2 ≤ (mb.type ty).max) (base size : Nat) :
    ∃ mb', removeRangeWith double mb ty base size = .ok (mb', 0) ∧
      Edit ty (withoutRange base size) mb mb' ∧ Inv mb' ∧
      (mb'.type ty).cnt ≤ (mb.type ty).cnt + if base = 0 then 0 else 1 := by
  rw [removeRangeWith, isolateRangeWith_eq]
  by_cases empty : memblockCapSize base size = 0
  · refine ⟨mb, ?_, .same (withoutRange_of_empty empty _), inv, by omega⟩
    simp [empty, removeRegions]
  · obtain ⟨iso, startRgn, endRgn, l, cut, done⟩ := isolateCut_ok empty (inv ty) fits
    rw [if_neg empty, growRounds, growWhile_fits fits, ok_bind]
    simp only [if_true, done, ok_bind]
    exact ⟨_, rfl, cut.removed inv⟩

/-- The pieces that an addition of the capped range has to insert. -/
def missing (mb : State) (ty : TypeId) (base size : Nat) : Nat :=
  pieces (base + memblockCapSize base size) (mb.type ty).regions base

theorem pieces_orDummy (hi : Nat) (l : List Region) (base : Nat) :
    pieces hi (orDummy l) base = pieces hi l base := by
  by_cases empty : l = []
  · subst l
    have low : Region.dummy.stop ≤ base := by simp [Region.dummy, stop]
    by_cases zero : hi = 0
    · simp [orDummy, pieces, zero]
    · have above : ¬ hi ≤ Region.dummy.base := by simpa [Region.dummy] using zero
      simp [orDummy, pieces, low, above]
  · rw [orDummy_of_ne empty]

theorem missing_eq {mb : State} {ty : TypeId} {l : List Region} (h : Contents (mb.type ty) l)
    (base size : Nat) :
    missing mb ty base size = pieces (base + memblockCapSize base size) l base := by
  rw [missing, h.regions_eq, pieces_orDummy]

theorem addRangeWith_fits (double : Doubling) {mb : State} (inv : Inv mb) (ty : TypeId)
    {base size : Nat} (flags : Flags)
    (fits : (mb.type ty).cnt + missing mb ty base size ≤ (mb.type ty).max) :
    ∃ mb', addRangeWith double mb ty base size flags = .ok (mb', 0) ∧
      Edit ty (withRange base size flags) mb mb' ∧ Inv mb' ∧
      (mb'.type ty).cnt ≤ (mb.type ty).cnt + missing mb ty base size := by
  obtain ⟨l, contents⟩ := (inv ty).contents
  rw [addRangeWith_eq contents]
  by_cases zero : memblockCapSize base size = 0
  · exact ⟨mb, if_pos zero, .same (withRange_of_empty zero flags _), inv, by omega⟩
  · have high := capped_end zero
    have pos := (inv ty).max_pos
    have cnt := (inv ty).cnt_pos
    have edit : Edit ty (withRange base size flags) mb (mb.setType ty _) :=
      .set contents (contents.added base high flags) rfl rfl rfl
        (lookup_addedTo contents.sound _ _ flags)
    have added := (contents.added base high flags).cnt_eq
    have length := length_addedTo base (base + memblockCapSize base size) flags l
    have := contents.length_le_cnt
    rw [if_neg zero]
    by_cases empty : l = []
    · subst l
      have one : pieces (base + memblockCapSize base size) ([] : List Region) base ≤ 1 := by
        unfold pieces
        split <;> omega
      simp only [List.length_nil] at length
      refine ⟨_, if_pos rfl, edit, inv.setType ty (contents.typeInv_added high flags pos ?_), ?_⟩
      · simp only [List.length_nil]
        omega
      · rw [State.type_setType]
        omega
    · rw [missing_eq contents] at fits ⊢
      simp only [if_neg empty]
      by_cases covered : pieces (base + memblockCapSize base size) l base = 0
      · rw [if_pos covered]
        rw [contents.addedType_eq_self flags covered, State.setType_type] at edit
        exact ⟨mb, rfl, edit, inv, by omega⟩
      · rw [if_neg covered, growRounds, growWhile_fits fits, ok_bind]
        simp only [if_true, contents.addInsert empty high flags fits, ok_bind]
        refine ⟨_, rfl, edit, inv.setType ty (contents.typeInv_added high flags pos (by omega)), ?_⟩
        rw [State.type_setType]
        omega

/-! ## One doubling -/

/-- Where an array is kept. -/
def MemblockType.storage (t : MemblockType) : Nat × Option Nat × Bool := (t.max, t.array, t.inSlab)

/-- What the operations of a run set from outside. -/
def State.settings (mb : State) : Bool × BitVec 64 × Bool :=
  (mb.bottomUp, mb.currentLimit, mb.canResize)

@[simp] theorem State.settings_setType (mb : State) (ty : TypeId) (t : MemblockType) :
    (mb.setType ty t).settings = mb.settings := by
  cases ty <;> rfl

theorem Edit.settings_eq {ty : TypeId} {f : AddrMap → AddrMap} {mb mb' : State}
    (h : Edit ty f mb mb') : mb'.settings = mb.settings := by
  obtain ⟨t, rfl, -⟩ := h.frame
  exact State.settings_setType ..

theorem Edit.storage_eq {ty : TypeId} {f : AddrMap → AddrMap} {mb mb' : State} (h : Edit ty f mb mb')
    (ty' : TypeId) : (mb'.type ty').storage = (mb.type ty').storage := by
  obtain ⟨t, rfl, max, array, inSlab⟩ := h.frame
  by_cases same : ty' = ty
  · subst same
    rw [State.type_setType, MemblockType.storage, max, array, inSlab]
    rfl
  · rw [State.type_setType_of_ne mb t same]

theorem Edit.type_of_ne {ty ty' : TypeId} {f : AddrMap → AddrMap} {mb mb' : State}
    (h : Edit ty f mb mb') (ne : ty' ≠ ty) : mb'.type ty' = mb.type ty' := by
  obtain ⟨t, rfl, -⟩ := h.frame
  exact State.type_setType_of_ne mb t ne

/-- `mb'` is `mb` with the array of `ty` doubled and moved to `addr`. -/
structure Relocated (env : Env) (ty : TypeId) (addr : Nat) (mb mb' : State) : Prop where
  inv : Inv mb'
  storage : (mb'.type ty).storage = ((mb.type ty).max * 2, some addr, env.slabIsAvailable)
  other : ∀ ty' ≠ ty, (mb'.type ty').storage = (mb.type ty').storage
  regions : mb'.memory.regions = mb.memory.regions
  settings : mb'.settings = mb.settings
  map_eq : mb'.map .reserved =
    claimBlock env addr ((mb.type ty).max * 2) (releaseBlock (mb.type ty) (mb.map .reserved))
  cnt_le : mb'.reserved.cnt ≤ mb.reserved.cnt + 2

theorem missing_of_free {mb : State} (inv : Inv mb) {ty : TypeId} {base size : Nat}
    (free : ∀ a, InRange base size a → mb.map ty a = none) : missing mb ty base size ≤ 1 := by
  obtain ⟨l, contents⟩ := (inv ty).contents
  rw [missing_eq contents]
  by_cases lt : base < base + memblockCapSize base size
  · refine (pieces_of_free contents.sound.ordered lt (fun a low high => ?_)).le
    rw [not_covered_iff, ← contents.lookup_eq]
    exact free a ⟨low, high⟩
  · rw [pieces_of_le contents.sound.ordered (Nat.not_lt.mp lt)]
    exact Nat.zero_le 1

theorem map_grown (mb : State) (ty ty' : TypeId) (addr : Nat) :
    (mb.setType ty (grown (mb.type ty) addr)).map ty' = mb.map ty' := by
  cases ty <;> cases ty' <;> rfl

theorem freeOldArray_fits (double : Doubling) {mb : State} (inv : Inv mb)
    (room : mb.reserved.cnt + 2 ≤ mb.reserved.max) (old : MemblockType) :
    ∃ mb', freeOldArray double mb old = .ok mb' ∧ Edit .reserved (releaseBlock old) mb mb' ∧
      Inv mb' ∧ mb'.reserved.cnt ≤ mb.reserved.cnt + 1 := by
  rw [freeOldArray_eq]
  unfold releaseBlock
  cases held : heldBlock old with
  | none => exact ⟨mb, rfl, .same rfl, inv, by omega⟩
  | some block =>
      obtain ⟨mb', done, edit, inv', cnt⟩ :=
        removeRangeWith_fits double inv .reserved room block.1 block.2
      refine ⟨mb', ?_, edit, inv', cnt.trans (Nat.add_le_add_left (by split <;> omega) _)⟩
      simp only [done, ok_bind]

theorem reserveNewArray_fits (env : Env) (double : Doubling) {mb : State} (inv : Inv mb)
    {addr max : Nat} (room : mb.reserved.cnt + 1 ≤ mb.reserved.max)
    (free : env.slabIsAvailable = false →
      ∀ a, InRange addr (arrayAllocSize max) a → mb.map .reserved a = none) :
    ∃ mb', reserveNewArray env double mb addr max = .ok mb' ∧
      Edit .reserved (claimBlock env addr max) mb mb' ∧ Inv mb' ∧
      mb'.reserved.cnt ≤ mb.reserved.cnt + 1 := by
  unfold reserveNewArray
  by_cases slab : env.slabIsAvailable = true
  · exact ⟨mb, if_pos slab, .same (by simp [claimBlock, slab]), inv, by omega⟩
  · have one := missing_of_free inv (free (by simpa using slab))
    obtain ⟨mb', done, edit, inv', cnt⟩ := addRangeWith_fits double inv .reserved Flags.none
      ((Nat.add_le_add_left one _).trans room)
    refine ⟨mb', ?_, ?_, inv', cnt.trans (Nat.add_le_add_left one _)⟩
    · rw [if_neg slab, done]
      rfl
    · have claim : claimBlock env addr max = withRange addr (arrayAllocSize max) Flags.none := by
        funext m
        simp [claimBlock, slab]
      rwa [claim]

theorem releaseBlock_of_none {t : MemblockType} {m : AddrMap} {a : Nat} (h : m a = none) :
    releaseBlock t m a = none := by
  unfold releaseBlock
  cases heldBlock t with
  | none => exact h
  | some block => simp only [withoutRange, h, ite_self]

/-- A doubling with room in `reserved` succeeds or leaves everything as it was. -/
theorem doubleArray_room (env : Env) (depth : Nat) {mb : State} (inv : Inv mb) (ty : TypeId)
    {start size : Nat} (area : start + size ≤ physAddrMax)
    (two : 2 ≤ (mb.type ty).max)
    (room : ty = .memory → mb.reserved.cnt + 2 ≤ mb.reserved.max)
    (written : env.slabIsAvailable = false → findNewArray env mb ty start size ≠ 0 →
      ¬ overruns mb (findNewArray env mb ty start size)
        ((mb.type ty).max * sizeofRegion * 2) = true) :
    ∃ mb' ret, memblockDoubleArray env (depth + 1) mb ty start size = .ok (mb', ret) ∧
      ((ret = -1 ∧ mb' = mb) ∨
        (ret = 0 ∧ findNewArray env mb ty start size ≠ 0 ∧
          Relocated env ty (findNewArray env mb ty start size) mb mb')) := by
  rw [doubleArray_eq]
  by_cases fixed : mb.canResize = false
  · exact ⟨mb, -1, if_pos fixed, .inl ⟨rfl, rfl⟩⟩
  rw [if_neg fixed]
  by_cases missed : findNewArray env mb ty start size = 0
  · exact ⟨mb, -1, if_pos missed, .inl ⟨rfl, rfl⟩⟩
  have clean : ¬ (env.slabIsAvailable = false ∧ overruns mb (findNewArray env mb ty start size)
      ((mb.type ty).max * sizeofRegion * 2) = true) := fun ⟨slab, bad⟩ => written slab missed bad
  rw [if_neg missed, if_neg clean]
  generalize haddr : findNewArray env mb ty start size = addr at *
  -- the array moves, the old block is released, the new block is reserved
  have inv1 := inv_grown inv ty addr
  have room1 : (mb.setType ty (grown (mb.type ty) addr)).reserved.cnt + 2 ≤
      (mb.setType ty (grown (mb.type ty) addr)).reserved.max := by
    cases ty with
    | memory => exact room rfl
    | reserved =>
        have := (inv .reserved).cnt_le
        show (mb.type .reserved).cnt + 2 ≤ (mb.type .reserved).max * 2
        omega
  obtain ⟨mb2, free, release, inv2, cnt2⟩ := freeOldArray_fits (memblockDoubleArray env depth) inv1
    room1 (mb.type ty)
  have free2 : env.slabIsAvailable = false →
      ∀ a, InRange addr (arrayAllocSize ((mb.type ty).max * 2)) a → mb2.map .reserved a = none := by
    intro slab a inside
    have gap := (newArray_fits inv slab area (haddr ▸ missed) (haddr ▸ written slab missed)).2.1
    rw [haddr] at gap
    have before : mb.map .reserved a = none := by
      refine gap.free (inv .reserved) inside.1 ?_
      have := inside.2
      unfold memblockCapSize at this
      omega
    rw [release.map_eq, map_grown]
    exact releaseBlock_of_none before
  have max2 : mb2.reserved.max = (mb.setType ty (grown (mb.type ty) addr)).reserved.max :=
    congrArg Prod.fst (release.storage_eq .reserved)
  obtain ⟨mb3, reserve, claim, inv3, cnt3⟩ := reserveNewArray_fits env
    (memblockDoubleArray env depth) inv2 (by omega : mb2.reserved.cnt + 1 ≤ mb2.reserved.max) free2
  simp only [free, ok_bind, reserve]
  refine ⟨_, 0, rfl, .inr ⟨rfl, missed, ?_⟩⟩
  have settled (ty' : TypeId) : (mb3.type ty').storage =
      ((mb.setType ty (grown (mb.type ty) addr)).type ty').storage :=
    (claim.storage_eq ty').trans (release.storage_eq ty')
  refine ⟨inv_inSlab inv3 ty _, ?_, ?_, ?_, ?_, ?_, ?_⟩
  · have := settled ty
    rw [State.type_setType] at this ⊢
    simp only [MemblockType.storage, grown, Prod.mk.injEq] at this ⊢
    exact ⟨this.1, this.2.1, trivial⟩
  · intro ty' ne
    have := settled ty'
    rw [State.type_setType_of_ne _ _ ne] at this ⊢
    exact this
  · have same : mb3.memory = (mb.setType ty (grown (mb.type ty) addr)).memory :=
      (claim.type_of_ne (by decide : TypeId.memory ≠ .reserved)).trans
        (release.type_of_ne (by decide))
    have regions : mb3.memory.regions = mb.memory.regions := by
      rw [same]
      cases ty <;> rfl
    rw [← regions]
    cases ty <;> rfl
  · rw [State.settings_setType, claim.settings_eq, release.settings_eq, State.settings_setType]
  · rw [map_inSlab, claim.map_eq, release.map_eq, map_grown]
  · have : (mb.setType ty (grown (mb.type ty) addr)).reserved.cnt = mb.reserved.cnt := by
      cases ty <;> rfl
    refine (le_of_eq ?_).trans (by omega : mb3.reserved.cnt ≤ mb.reserved.cnt + 2)
    cases ty <;> rfl

end Miracle.Memblock
