import Miracle.Memblock.Safety

/-! # Updates of `reserved` that stop at no `BUG_ON`

`memblock_add_range` counts the regions it needs before it doubles the array, and the
doubling changes `reserved` itself.  `ReserveOk` says when the count is still good
enough afterwards.
-/

namespace Miracle.Memblock

open Extent

/-! ## The growing loop -/

/-- A loop invariant indexed by the number of doublings, of which `n` are enough. -/
theorem growWhile_rounds {stop : Bug → Prop} {double : Doubling} {ty : TypeId}
    {need start size : Nat} (n : Nat) (P : Nat → State → Prop)
    (step : ∀ i < n, ∀ mb, P i mb → Outcome stop
      (fun r => (r.2 < 0 ∧ r.1 = mb) ∨ (r.2 = 0 ∧ P (i + 1) r.1)) (double mb ty start size))
    (enough : ∀ mb, P n mb → (mb.type ty).cnt + need ≤ (mb.type ty).max)
    {i fuel : Nat} (le : i ≤ n) (fueled : n < fuel + i) {mb : State} (h : P i mb) :
    Outcome stop (fun r => (∃ j ≤ n, P j r.1) ∧
        (r.2 = true → (r.1.type ty).cnt + need ≤ (r.1.type ty).max))
      (growWhile double ty need start size fuel mb) := by
  induction fuel generalizing i mb with
  | zero => omega
  | succ fuel ih =>
      by_cases fits : (mb.type ty).cnt + need ≤ (mb.type ty).max
      · rw [growWhile_fits fits]
        exact ⟨⟨i, le, h⟩, fun _ => fits⟩
      · have lt : i < n := by
          rcases Nat.lt_or_eq_of_le le with lt | rfl
          · exact lt
          · exact absurd (enough mb h) fits
        simp only [growWhile, gt_iff_lt, if_pos (Nat.not_le.mp fits)]
        refine (step i lt mb h).bind (fun r outcome => ?_)
        rcases outcome with ⟨neg, same⟩ | ⟨zero, next⟩
        · simp only [if_pos neg]
          exact ⟨⟨i, le, same ▸ h⟩, by simp⟩
        · simp only [zero, Int.lt_irrefl, if_false]
          exact ih lt (by omega) next

/-- All arrays lie in reserved memory whenever a doubling may have to look for some. -/
def Ready (env : Env) (mb : State) : Prop :=
  mb.canResize = true → env.slabIsAvailable = false → ∀ ty, Held mb ty

theorem Ready.writable {env : Env} {mb : State} (h : Ready env mb) (ty : TypeId) (start size : Nat) :
    Writable env mb ty start size :=
  fun resize slab ty' => .inl (h resize slab ty')

theorem Ready.doubled {env : Env} {mb mb' : State} (h : Ready env mb) {ty : TypeId}
    {start size addr : Nat} (doubled : Doubled env ty start size addr mb mb') : Ready env mb' := by
  intro resize slab ty'
  rw [State.canResize_of_settings doubled.moved.settings] at resize
  exact (doubled.held slab).2 ty' (h resize slab ty')

/-! ## Removal -/

/-- The outcome of a removal from `reserved`. -/
structure Freed (base : Nat) (mb mb' : State) : Prop where
  good : Good mb'
  apart : Apart mb → Apart mb'
  regions : mb'.memory.regions = mb.memory.regions
  storage : (mb'.type .memory).storage = (mb.type .memory).storage
  settings : mb'.settings = mb.settings
  room : base = 0 → mb' = mb ∨ mb'.reserved.cnt + 2 ≤ mb'.reserved.max

theorem Freed.refl {mb : State} (good : Good mb) (base : Nat) : Freed base mb mb :=
  ⟨good, id, rfl, rfl, rfl, fun _ => .inl rfl⟩

/-- One doubling makes room for the two regions of an isolation. -/
theorem Doubled.room {env : Env} {mb mb' : State} (good : Good mb) {start size addr : Nat}
    (doubled : Doubled env .reserved start size addr mb mb') :
    mb'.reserved.cnt + 2 ≤ mb'.reserved.max := by
  have max : mb'.reserved.max = mb.reserved.max * 2 := doubled.moved.storage_fields.1
  have cnt := doubled.moved.cnt_le
  have : mb.reserved.cnt ≤ mb.reserved.max := (good.inv .reserved).cnt_le
  have : 128 ≤ mb.reserved.max := (good.sized .reserved).bounds.1
  omega

theorem Doubled.freed {env : Env} {mb mb' : State} (good : Good mb) {start size addr : Nat}
    (doubled : Doubled env .reserved start size addr mb mb') (base : Nat) : Freed base mb mb' :=
  ⟨doubled.good, fun _ => doubled.apart, doubled.moved.regions, doubled.moved.other .memory (by decide),
    doubled.moved.settings, fun _ => .inr (doubled.room good)⟩

/-- The growth before a removal from `reserved`. -/
theorem growReserved_two (env : Env) (depth : Nat) {mb : State} (good : Good mb)
    (apart : env.slabIsAvailable = false → Apart mb) {base size : Nat} (area : base + size ≤ physAddrMax)
    (ready : mb.reserved.max < mb.reserved.cnt + 2 → Ready env mb) :
    ∃ mid room, growWhile (memblockDoubleArray env (depth + 1)) .reserved 2 base size growRounds mb =
        .ok (mid, room) ∧
      (mid = mb ∨ ∃ addr, Doubled env .reserved base size addr mb mid) ∧
      (room = true → mid.reserved.cnt + 2 ≤ mid.reserved.max) := by
  by_cases fits : (mb.type .reserved).cnt + 2 ≤ (mb.type .reserved).max
  · exact ⟨mb, true, growWhile_fits fits _ _ 63, .inl rfl, fun _ => fits⟩
  have writable := (ready (Nat.not_le.mp fits)).writable .reserved base size
  let P (i : Nat) (mid : State) : Prop := (i = 0 → mid = mb) ∧
    (i ≠ 0 → ∃ addr, Doubled env .reserved base size addr mb mid)
  have step (i : Nat) (lt : i < 1) (mid : State) (h : P i mid) : Outcome (fun _ => False)
      (fun r => (r.2 < 0 ∧ r.1 = mid) ∨ (r.2 = 0 ∧ P (i + 1) r.1))
      (memblockDoubleArray env (depth + 1) mid .reserved base size) := by
    obtain rfl := h.1 (by omega)
    obtain ⟨mb', ret, done, outcome⟩ := double_safe env depth good apart .reserved area (by simp)
      writable
    rw [done]
    rcases outcome with ⟨rfl, same⟩ | ⟨rfl, doubled⟩
    · exact .inl ⟨by simp, same⟩
    · exact .inr ⟨rfl, by simp, fun _ => doubled⟩
  have rounds := growWhile_rounds 1 P step (fun mid h => (h.2 (by decide)).choose_spec.room good)
    (Nat.zero_le 1) (by decide : 1 < growRounds + 0) ⟨fun _ => @rfl _ mb, by simp⟩
  obtain ⟨⟨mid, room⟩, grow, ⟨j, -, first, later⟩, fits⟩ := rounds.exists_ok
  refine ⟨mid, room, grow, ?_, fits⟩
  by_cases zero : j = 0
  · exact .inl (first zero)
  · exact .inr (later zero)

theorem removeReserved_safe (env : Env) (depth : Nat) {mb : State} (good : Good mb)
    (apart : env.slabIsAvailable = false → Apart mb) (base size : Nat)
    (ready : mb.reserved.max < mb.reserved.cnt + 2 → Ready env mb) :
    ∃ mb' ret, removeRangeWith (memblockDoubleArray env (depth + 1)) mb .reserved base size =
      .ok (mb', ret) ∧ Freed base mb mb' := by
  have same := Freed.refl good base
  rw [removeRangeWith, isolateRangeWith_eq]
  by_cases empty : memblockCapSize base size = 0
  · exact ⟨mb, 0, by simp [empty, removeRegions], same⟩
  obtain ⟨mid, room, grow, state, fits⟩ := growReserved_two env depth good apart
    (capped_end empty) ready
  have midway : Freed base mb mid := by
    rcases state with rfl | ⟨addr, doubled⟩
    · exact same
    · exact doubled.freed good base
  rw [if_neg empty, grow, ok_bind]
  cases room with
  | false => exact ⟨mid, -enomem, by simp [enomem], midway⟩
  | true =>
      obtain ⟨iso, startRgn, endRgn, l, cut, done⟩ :=
        isolateCut_ok empty (midway.good.inv .reserved) (fits rfl)
      obtain ⟨edit, inv, cnt⟩ := cut.removed midway.good.inv
      simp only [if_true, done, ok_bind]
      refine ⟨_, 0, rfl, midway.good.edit edit inv, fun h => (midway.apart h).edit edit, ?_, ?_, ?_, ?_⟩
      · have memory := edit.type_of_ne (by decide : TypeId.memory ≠ .reserved)
        exact (congrArg MemblockType.regions memory).trans midway.regions
      · exact (edit.storage_eq .memory).trans midway.storage
      · exact edit.settings_eq.trans midway.settings
      · intro zero
        rw [if_pos zero] at cnt
        exact .inr ((Nat.add_le_add_right cnt 2).trans
          ((fits rfl).trans (edit.max_eq .reserved).symm.le))

/-! ## What a doubling does to the count of missing pieces -/

theorem Sound.exists_released {l : List Region} (h : Sound l) (t : MemblockType) (hi base : Nat) :
    ∃ m, Sound m ∧ (∀ a, lookup m a = releaseBlock t (lookup l) a) ∧
      pieces hi m base ≤ pieces hi l base + 1 := by
  unfold releaseBlock
  cases heldBlock t with
  | none => exact ⟨l, h, fun _ => rfl, by omega⟩
  | some block =>
      have le : block.1 ≤ block.1 + memblockCapSize block.1 block.2 := by omega
      refine ⟨_, h.outside le, lookup_outside h le, ?_⟩
      have same (a : Nat) : Covered (Memblock.outside block.1
          (block.1 + memblockCapSize block.1 block.2) l) a ↔
          Covered l a ∧ ¬ (block.1 ≤ a ∧ a < block.1 + memblockCapSize block.1 block.2) := by
        rw [Covered, lookup_outside h le, Covered]
        by_cases inside : block.1 ≤ a ∧ a < block.1 + memblockCapSize block.1 block.2
        · simp [inside]
        · rw [if_neg inside]
          exact (and_iff_left inside).symm
      exact pieces_of_removed h.ordered (h.outside le).ordered same

/-- The two blocks that change hands add at most one missing piece each. -/
theorem Relocated.missing_le {env : Env} {mb mb' : State} {ty : TypeId} {addr : Nat} (inv : Inv mb)
    (moved : Relocated env ty addr mb mb') (base size : Nat) :
    missing mb' .reserved base size ≤ missing mb .reserved base size + 2 := by
  obtain ⟨l, contents⟩ := (inv .reserved).contents
  obtain ⟨l', contents'⟩ := (moved.inv .reserved).contents
  obtain ⟨m, sound, released, count⟩ := contents.sound.exists_released (mb.type ty)
    (base + memblockCapSize base size) base
  rw [missing_eq contents, missing_eq contents']
  have before : mb.map .reserved = lookup l := funext contents.lookup_eq
  have after (a : Nat) : lookup l' a =
      claimBlock env addr ((mb.type ty).max * 2) (lookup m) a := by
    rw [← contents'.lookup_eq, funext released, ← before, ← moved.map_eq]
    rfl
  by_cases slab : env.slabIsAvailable = true
  · have same : pieces (base + memblockCapSize base size) l' base =
        pieces (base + memblockCapSize base size) m base := by
      refine pieces_congr contents'.sound.ordered sound.ordered (fun a => ?_)
      rw [Covered, after, claimBlock, if_pos slab, Covered]
    omega
  · have same (a : Nat) : Covered l' a ↔
        Covered m a ∨ InRange addr (arrayAllocSize ((mb.type ty).max * 2)) a := by
      rw [Covered, after, claimBlock, if_neg slab, Covered]
      by_cases inside : InRange addr (arrayAllocSize ((mb.type ty).max * 2)) a
      · simp [withRange, inside]
      · simp [withRange, inside]
    have : pieces (base + memblockCapSize base size) l' base ≤
        pieces (base + memblockCapSize base size) m base + 1 :=
      pieces_of_added sound.ordered contents'.sound.ordered same
    omega

/-- The range of a reservation keeps clear of the blocks that a doubling exchanges. -/
def Clear (env : Env) (mb : State) (base size : Nat) : Prop :=
  (env.slabIsAvailable = true ∨ base ≠ 0) ∧
    ∀ block, heldBlock (mb.type .reserved) = some block →
      base + memblockCapSize base size ≤ block.1 ∨ block.1 + block.2 ≤ base

theorem Doubled.clear {env : Env} {mb mb' : State} (inv : Inv mb) {base size addr : Nat}
    (doubled : Doubled env .reserved base (memblockCapSize base size) addr mb mb')
    (clear : Clear env mb base size) :
    Clear env mb' base size ∧ missing mb' .reserved base size = missing mb .reserved base size := by
  obtain ⟨mode, outside⟩ := clear
  obtain ⟨max, array, inSlab⟩ := doubled.moved.storage_fields
  -- the new block does not meet the range either
  have avoid (slab : ¬ env.slabIsAvailable = true) : base + memblockCapSize base size ≤ addr ∨
      addr + arrayAllocSize ((mb.type .reserved).max * 2) ≤ base := by
    have nonzero := mode.resolve_left slab
    exact (doubled.place (by simpa using slab)).2.2.2 rfl nonzero
  refine ⟨⟨mode, ?_⟩, ?_⟩
  · intro block held
    by_cases slab : env.slabIsAvailable = true
    · rw [heldBlock_slab (inSlab.trans slab)] at held
      cases held
    · obtain ⟨-, at_, size'⟩ := heldBlock_eq_some held
      rw [array] at at_
      cases at_
      rw [size', max]
      exact avoid slab
  · obtain ⟨l, contents⟩ := (inv .reserved).contents
    obtain ⟨l', contents'⟩ := (doubled.moved.inv .reserved).contents
    rw [missing_eq contents, missing_eq contents']
    refine pieces_of_outside contents.sound.ordered contents'.sound.ordered (fun a low high => ?_)
    have same : mb'.map .reserved a = mb.map .reserved a := by
      rw [doubled.moved.map_eq]
      have released : releaseBlock (mb.type .reserved) (mb.map .reserved) a = mb.map .reserved a := by
        refine releaseBlock_of_outside (fun block held inside => ?_)
        have := outside block held
        omega
      by_cases slab : env.slabIsAvailable = true
      · rw [claimBlock, if_pos slab, released]
      · have := avoid slab
        have out : ¬ InRange addr (arrayAllocSize ((mb.type .reserved).max * 2)) a := by
          rintro ⟨h1, h2⟩
          unfold memblockCapSize at h2
          omega
        rw [claimBlock, if_neg slab]
        simp only [withRange, if_neg out, Option.or_none, released]
    rw [Covered, Covered, ← contents.lookup_eq, ← contents'.lookup_eq]
    exact iff_of_eq (congrArg (fun o => o.isSome = true) same)

/-! ## Addition -/

/-- Some reserved address outlives the release of the array's own block. -/
def Anchored (env : Env) (mb : State) : Prop :=
  ∃ a, mb.map .reserved a ≠ none ∧ (env.slabIsAvailable = true →
    ∀ block, heldBlock (mb.type .reserved) = some block → ¬ (block.1 ≤ a ∧ a < block.1 + block.2))

/-- When a reservation that has to double its array can rely on its count: there is a
    margin of four entries, or the range keeps clear of the blocks that are exchanged.
    With the slab in use the old block is released and no new one reserved, so some other
    region must be left. -/
def ReserveOk (env : Env) (mb : State) (base size : Nat) : Prop :=
  (mb.reserved.cnt + missing mb .reserved base size + 4 ≤ 2 * mb.reserved.max ∨
    Clear env mb base size) ∧
  (env.slabIsAvailable = true → Anchored env mb)

/-- The state of the growing loop after `i` doublings. -/
structure Growing (env : Env) (base size : Nat) (mb : State) (i : Nat) (mid : State) : Prop where
  good : Good mid
  apart : Apart mb → Apart mid
  writable : Writable env mid .reserved base (memblockCapSize base size)
  regions : mid.memory.regions = mb.memory.regions
  storage : (mid.type .memory).storage = (mb.type .memory).storage
  settings : mid.settings = mb.settings
  cnt_le : mid.reserved.cnt ≤ mb.reserved.cnt + 2 * i
  max_eq : mid.reserved.max = mb.reserved.max * 2 ^ i
  missing_le : missing mid .reserved base size ≤ missing mb .reserved base size + 2 * i
  clear : Clear env mb base size → Clear env mid base size ∧
    missing mid .reserved base size = missing mb .reserved base size
  anchored : Anchored env mid
  held : env.slabIsAvailable = false → ∀ ty, Held mb ty → Held mid ty

theorem Doubled.anchored {env : Env} {mb mb' : State} {start size addr : Nat}
    (doubled : Doubled env .reserved start size addr mb mb') (h : Anchored env mb) :
    Anchored env mb' := by
  obtain ⟨max, array, inSlab⟩ := doubled.moved.storage_fields
  by_cases slab : env.slabIsAvailable = true
  · obtain ⟨a, reserved, outside⟩ := h
    refine ⟨a, ?_, fun _ block held => ?_⟩
    · rw [doubled.moved.map_eq, claimBlock, if_pos slab,
        releaseBlock_of_outside (outside slab)]
      exact reserved
    · rw [heldBlock_slab (inSlab.trans slab)] at held
      cases held
  · have slab' : env.slabIsAvailable = false := by simpa using slab
    have covers := ((doubled.held slab').1 addr array).2
    have := (doubled.good.sized .reserved).bounds
    have := arrayAllocSize_ge (by omega : (mb'.type .reserved).max ≤ 2 ^ 59)
    refine ⟨addr, covers addr le_rfl ?_, fun on => absurd on slab⟩
    simp only [sizeofRegion] at this
    omega

theorem Growing.step {env : Env} {mb mid mid' : State} {base size i addr : Nat}
    (h : Growing env base size mb i mid)
    (doubled : Doubled env .reserved base (memblockCapSize base size) addr mid mid') :
    Growing env base size mb (i + 1) mid' := by
  have moved := doubled.moved
  have max : mid'.reserved.max = mid.reserved.max * 2 := moved.storage_fields.1
  have := moved.cnt_le
  have := h.cnt_le
  have := moved.missing_le h.good.inv base size
  have := h.missing_le
  refine ⟨doubled.good, fun _ => doubled.apart, doubled.writable, moved.regions.trans h.regions,
    (moved.other .memory (by decide)).trans h.storage, moved.settings.trans h.settings, by omega, ?_,
    by omega, fun clear => ?_, doubled.anchored h.anchored, fun slab ty old => ?_⟩
  · rw [max, h.max_eq, pow_succ, Nat.mul_assoc]
  · obtain ⟨clear', same⟩ := h.clear clear
    obtain ⟨clear'', same'⟩ := doubled.clear h.good.inv clear'
    exact ⟨clear'', same'.trans same⟩
  · exact (doubled.held slab).2 ty (h.held slab ty old)

/-- The growth before an addition leaves room for what is then missing. -/
theorem growReserved_missing (env : Env) (depth : Nat) {mb : State} (good : Good mb)
    (apart : env.slabIsAvailable = false → Apart mb) {base size : Nat} (area : base + memblockCapSize base size ≤ physAddrMax)
    (ok : ReserveOk env mb base size) (start : Growing env base size mb 0 mb) :
    ∃ mid room, growWhile (memblockDoubleArray env (depth + 1)) .reserved
        (missing mb .reserved base size) base (memblockCapSize base size) growRounds mb =
          .ok (mid, room) ∧
      (∃ i, Growing env base size mb i mid) ∧
      (room = true → mid.reserved.cnt + missing mid .reserved base size ≤ mid.reserved.max) := by
  have fits : mb.reserved.cnt ≤ mb.reserved.max := (good.inv .reserved).cnt_le
  have large : 128 ≤ mb.reserved.max := (good.sized .reserved).bounds.1
  have few : missing mb .reserved base size ≤ mb.reserved.cnt + 1 := pieces_le ..
  have step (n i : Nat) (_ : i < n) (mid : State) (h : Growing env base size mb i mid) :
      Outcome (fun _ => False)
        (fun r => (r.2 < 0 ∧ r.1 = mid) ∨ (r.2 = 0 ∧ Growing env base size mb (i + 1) r.1))
        (memblockDoubleArray env (depth + 1) mid .reserved base (memblockCapSize base size)) := by
    obtain ⟨mid', ret, done, outcome⟩ := double_safe env depth h.good
      (fun slab => h.apart (apart slab)) .reserved area (by simp) h.writable
    rw [done]
    rcases outcome with ⟨rfl, same⟩ | ⟨rfl, addr, doubled⟩
    · exact .inl ⟨by simp, same⟩
    · exact .inr ⟨rfl, h.step doubled⟩
  rcases ok.1 with margin | clear
  · -- one doubling is enough, with four entries to spare
    have rounds := growWhile_rounds 1 (Growing env base size mb) (step 1)
      (fun mid h => by
        have := h.cnt_le
        have := h.max_eq
        show mid.reserved.cnt + missing mb .reserved base size ≤ mid.reserved.max
        omega)
      (Nat.zero_le 1) (by decide : 1 < growRounds + 0) start
    obtain ⟨⟨mid, room⟩, grow, ⟨i, le, h⟩, enough⟩ := rounds.exists_ok
    refine ⟨mid, room, grow, ⟨i, h⟩, fun yes => ?_⟩
    have counted : mid.reserved.cnt + missing mb .reserved base size ≤ mid.reserved.max := enough yes
    change Growing env base size mb i mid at h
    have := h.cnt_le
    have := h.max_eq
    have := h.missing_le
    interval_cases i
    · omega
    · omega
  · have rounds := growWhile_rounds 2 (Growing env base size mb) (step 2)
      (fun mid h => by
        have := h.cnt_le
        have := h.max_eq
        show mid.reserved.cnt + missing mb .reserved base size ≤ mid.reserved.max
        omega)
      (Nat.zero_le 2) (by decide : 2 < growRounds + 0) start
    obtain ⟨⟨mid, room⟩, grow, ⟨i, le, h⟩, enough⟩ := rounds.exists_ok
    refine ⟨mid, room, grow, ⟨i, h⟩, fun yes => ?_⟩
    rw [(h.clear clear).2]
    exact enough yes

/-- What doublings and additions for the range keep. -/
structure Kept (env : Env) (base size : Nat) (mb mb' : State) : Prop where
  good : Good mb'
  apart : Apart mb → Apart mb'
  regions : mb'.memory.regions = mb.memory.regions
  storage : (mb'.type .memory).storage = (mb.type .memory).storage
  settings : mb'.settings = mb.settings
  held : env.slabIsAvailable = false → ∀ ty, Held mb ty → Held mb' ty
  clear : Clear env mb base size → Clear env mb' base size

theorem Kept.refl {env : Env} {mb : State} (good : Good mb) (base size : Nat) :
    Kept env base size mb mb := ⟨good, id, rfl, rfl, rfl, fun _ _ => id, id⟩

theorem Growing.kept {env : Env} {base size i : Nat} {mb mid : State}
    (h : Growing env base size mb i mid) : Kept env base size mb mid :=
  ⟨h.good, h.apart, h.regions, h.storage, h.settings, h.held, fun clear => (h.clear clear).1⟩

theorem Edit.held_withRange {base size : Nat} {flags : Flags} {mb mb' : State}
    (edit : Edit .reserved (withRange base size flags) mb mb') {ty : TypeId} (held : Held mb ty) :
    Held mb' ty := by
  intro pa array
  have same := edit.storage_eq ty
  simp only [MemblockType.storage, Prod.mk.injEq] at same
  obtain ⟨max, array', inSlab⟩ := same
  rw [array'] at array
  rw [max, inSlab]
  obtain ⟨slab, covers⟩ := held pa array
  refine ⟨slab, fun a low high none => covers a low high ?_⟩
  rw [edit.map_eq] at none
  exact (Option.or_eq_none_iff.mp none).1

theorem Kept.edit {env : Env} {base size base' size' : Nat} {flags : Flags} {mb mid mb' : State}
    (h : Kept env base size mb mid) (edit : Edit .reserved (withRange base' size' flags) mid mb')
    (inv : Inv mb') : Kept env base size mb mb' := by
  have memory := edit.type_of_ne (by decide : TypeId.memory ≠ .reserved)
  refine ⟨h.good.edit edit inv, fun old => (h.apart old).edit edit, (congrArg MemblockType.regions memory).trans h.regions,
    (edit.storage_eq .memory).trans h.storage, edit.settings_eq.trans h.settings,
    fun slab ty old => edit.held_withRange (h.held slab ty old), fun clear => ?_⟩
  obtain ⟨mode, outside⟩ := h.clear clear
  exact ⟨mode, by rw [heldBlock_storage (edit.storage_eq .reserved)]; exact outside⟩

theorem Edit.covered {base size : Nat} {flags : Flags} {mb mb' : State}
    (edit : Edit .reserved (withRange base size flags) mb mb') {a : Nat} (inside : InRange base size a) :
    mb'.map .reserved a ≠ none := by
  rw [edit.map_eq]
  simp only [withRange, if_pos inside]
  cases mb.map .reserved a <;> simp

/-- An addition to `reserved` returns, with success or with `-ENOMEM`. -/
theorem addReserved_safe (env : Env) (depth : Nat) {mb : State} (good : Good mb)
    (apart : env.slabIsAvailable = false → Apart mb) (base size : Nat) (flags : Flags)
    (ok : mb.reserved.max < mb.reserved.cnt + missing mb .reserved base size →
      Writable env mb .reserved base (memblockCapSize base size) ∧ ReserveOk env mb base size) :
    ∃ mb' ret, addRangeWith (memblockDoubleArray env (depth + 1)) mb .reserved base size flags =
        .ok (mb', ret) ∧ Kept env base size mb mb' ∧
      ((ret = 0 ∧ ∀ a, InRange base size a → mb'.map .reserved a ≠ none) ∨ ret = -enomem) := by
  by_cases fits : mb.reserved.cnt + missing mb .reserved base size ≤ mb.reserved.max
  · obtain ⟨mb', done, edit, inv, -⟩ := addRangeWith_fits (memblockDoubleArray env (depth + 1)) good.inv
      .reserved flags fits
    exact ⟨mb', 0, done, (Kept.refl good base size).edit edit inv, .inl ⟨rfl, fun a => edit.covered⟩⟩
  obtain ⟨writable, ok⟩ := ok (Nat.not_le.mp fits)
  obtain ⟨l, contents⟩ := (good.inv .reserved).contents
  have fits' : (mb.type .reserved).cnt ≤ (mb.type .reserved).max := (good.inv .reserved).cnt_le
  have positive : missing mb .reserved base size ≠ 0 := by
    intro none
    rw [none] at fits
    exact fits fits'
  have nonempty : memblockCapSize base size ≠ 0 := by
    intro none
    rw [missing_eq contents, none, pieces_of_le contents.sound.ordered (by omega)] at positive
    exact positive rfl
  have ne : l ≠ [] := by
    rintro rfl
    have one : missing mb .reserved base size ≤ 1 := by
      rw [missing_eq contents]
      exact pieces_le ..
    have : 128 ≤ mb.reserved.max := (good.sized .reserved).bounds.1
    have : mb.reserved.cnt = 1 := contents.cnt_eq
    omega
  have area := capped_end nonempty
  have anchored : Anchored env mb := by
    by_cases slab : env.slabIsAvailable = true
    · exact ok.2 slab
    · obtain ⟨a, some⟩ := contents.occupied ne
      exact ⟨a, by simpa using Option.isSome_iff_ne_none.mp some, fun on => absurd on slab⟩
  have start : Growing env base size mb 0 mb :=
    ⟨good, id, writable, rfl, rfl, rfl, by omega, by simp, by omega, fun clear => ⟨clear, rfl⟩, anchored,
      fun _ _ => id⟩
  obtain ⟨mid, room, grow, ⟨i, h⟩, enough⟩ := growReserved_missing env depth good apart area ok start
  rw [missing_eq contents] at grow
  rw [addRangeWith_eq contents]
  rw [missing_eq contents] at positive
  simp only [if_neg nonempty, if_neg ne, if_neg positive, grow, ok_bind]
  cases room with
  | false => exact ⟨mid, -enomem, rfl, h.kept, .inr rfl⟩
  | true =>
      have enough := enough rfl
      obtain ⟨l', contents'⟩ := (h.good.inv .reserved).contents
      rw [missing_eq contents'] at enough
      have ne' : l' ≠ [] := by
        rintro rfl
        obtain ⟨a, some, -⟩ := h.anchored
        exact some (contents'.lookup_eq a)
      have edit : Edit .reserved (withRange base size flags) mid (mid.setType .reserved _) :=
        .set contents' (contents'.added base area flags) rfl rfl rfl
          (lookup_addedTo contents'.sound _ _ flags)
      have length := contents'.length_le_cnt
      have inv : Inv (mid.setType .reserved _) := h.good.inv.setType .reserved
        (contents'.typeInv_added area flags (h.good.inv .reserved).max_pos
          ((Nat.add_le_add_right length _).trans enough))
      simp only [if_true, contents'.addInsert ne' area flags enough, ok_bind]
      exact ⟨_, 0, rfl, h.kept.edit edit inv, .inl ⟨rfl, fun a => edit.covered⟩⟩

end Miracle.Memblock
