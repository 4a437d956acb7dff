import Miracle.Memblock.MemoryGrowth
import Miracle.Memblock.Refinement

/-! # Runs of memblock operations

An operation that has to double an array meets its count of new regions only under
conditions on the arrays and the range, `StepOk`.  In every run whose operations meet
them the representation invariant holds throughout and only the `BUG_ON` of
`memblock_double_array` can end the run.
-/

namespace Miracle.Memblock

open Extent

/-- What holds between the operations of a run. -/
structure RunInv (mb : State) : Prop where
  good : Good mb
  apart : Apart mb

/-- An update that needs `need` more regions has to double the array of `ty`. -/
def Grows (mb : State) (ty : TypeId) (need : Nat) : Prop :=
  mb.canResize = true ∧ (mb.type ty).max < (mb.type ty).cnt + need

theorem growWhile_fixed (env : Env) (depth : Nat) {mb : State} (fixed : ¬ mb.canResize = true)
    {ty : TypeId} {need : Nat} (full : ¬ (mb.type ty).cnt + need ≤ (mb.type ty).max)
    (start size : Nat) :
    growWhile (memblockDoubleArray env (depth + 1)) ty need start size growRounds mb =
      .ok (mb, false) := by
  have stays : memblockDoubleArray env (depth + 1) mb ty start size = .ok (mb, -1) := by
    rw [doubleArray_eq, if_pos (by simpa using fixed)]
  rw [growRounds, growWhile, if_pos (Nat.not_le.mp full), stays, ok_bind]
  rfl

/-- An addition without room for its regions, to an array that cannot grow, changes nothing. -/
theorem addRangeWith_full (env : Env) (depth : Nat) {mb : State} (h : RunInv mb)
    (fixed : ¬ mb.canResize = true) {ty : TypeId} {base size : Nat} (flags : Flags)
    (full : ¬ (mb.type ty).cnt + missing mb ty base size ≤ (mb.type ty).max) :
    addRangeWith (memblockDoubleArray env (depth + 1)) mb ty base size flags = .ok (mb, -enomem) := by
  obtain ⟨l, contents⟩ := (h.good.inv ty).contents
  have low := (h.good.inv ty).cnt_le
  have large : 128 ≤ (mb.type ty).max := (h.good.sized ty).bounds.1
  have count := missing_eq contents base size
  have nonempty : memblockCapSize base size ≠ 0 := by
    intro empty
    rw [pieces_of_le contents.sound.ordered (by omega)] at count
    omega
  have nil : l ≠ [] := by
    rintro rfl
    have one : (mb.type ty).cnt = 1 := contents.cnt_eq
    have := pieces_le (base + memblockCapSize base size) ([] : List Region) base
    simp only [List.length_nil] at this
    omega
  have pieces : pieces (base + memblockCapSize base size) l base ≠ 0 := by omega
  rw [addRangeWith_eq contents]
  simp only [if_neg nonempty, if_neg nil, if_neg pieces]
  rw [← count, growWhile_fixed env depth fixed full, ok_bind]
  rfl

/-! ## Updates of `memory` -/

/-- The state in which an update of `memory` has made room. -/
structure MemoryGrown (env : Env) (need : Nat) (mb mid : State) : Prop where
  inv : RunInv mid
  regions : mid.memory.regions = mb.memory.regions
  same : ¬ Grows mb .memory need → mid = mb
  ready : Grows mb .memory need → Ready env mid

theorem MemoryGrown.refl {env : Env} {need : Nat} {mb : State} (h : RunInv mb)
    (ready : Grows mb .memory need → Ready env mb) : MemoryGrown env need mb mb :=
  ⟨h, rfl, fun _ => rfl, ready⟩

theorem growMemory_outcome (env : Env) (depth : Nat) {mb : State} (h : RunInv mb)
    {need start size : Nat} (area : start + size ≤ physAddrMax) (few : need ≤ mb.memory.max + 1)
    (ok : Grows mb .memory need → Ready env mb ∧ MemoryOk env mb need) :
    Outcome InDoubleArray (fun r => MemoryGrown env need mb r.1 ∧
        (r.2 = true → r.1.memory.cnt + need ≤ r.1.memory.max))
      (growWhile (memblockDoubleArray env (depth + 2)) .memory need start size growRounds mb) := by
  by_cases fits : (mb.type .memory).cnt + need ≤ (mb.type .memory).max
  · rw [growRounds, growWhile_fits fits]
    exact ⟨.refl h (fun grows => absurd fits (Nat.not_le.mpr grows.2)), fun _ => fits⟩
  by_cases fixed : mb.canResize = true
  · have grows : Grows mb .memory need := ⟨fixed, Nat.not_le.mp fits⟩
    obtain ⟨ready, enough⟩ := ok grows
    refine (growMemory_safe env depth h.good h.apart ready area few enough).mono ?_
    rintro r ⟨⟨i, state⟩, room⟩
    exact ⟨⟨⟨state.good, state.apart⟩, state.regions, fun not => absurd grows not,
      fun _ => state.ready⟩, room⟩
  · rw [growWhile_fixed env (depth + 1) fixed fits]
    exact ⟨.refl h (fun grows => absurd grows.1 fixed), by simp⟩

theorem RunInv.edit {ty : TypeId} {f : AddrMap → AddrMap} {mb mb' : State} (h : RunInv mb)
    (edit : Edit ty f mb mb') (inv : Inv mb') : RunInv mb' :=
  ⟨h.good.edit edit inv, h.apart.edit edit⟩

theorem addMemory_outcome (env : Env) (depth : Nat) {mb : State} (h : RunInv mb) (base size : Nat)
    (flags : Flags)
    (ok : Grows mb .memory (missing mb .memory base size) →
      Ready env mb ∧ MemoryOk env mb (missing mb .memory base size)) :
    Outcome InDoubleArray (fun r => RunInv r.1)
      (addRangeWith (memblockDoubleArray env (depth + 2)) mb .memory base size flags) := by
  by_cases fits : (mb.type .memory).cnt + missing mb .memory base size ≤ (mb.type .memory).max
  · obtain ⟨mb', done, edit, inv, -⟩ := addRangeWith_fits (memblockDoubleArray env (depth + 2))
      h.good.inv .memory flags fits
    rw [done]
    exact h.edit edit inv
  obtain ⟨l, contents⟩ := (h.good.inv .memory).contents
  have low : (mb.type .memory).cnt ≤ (mb.type .memory).max := (h.good.inv .memory).cnt_le
  have few : missing mb .memory base size ≤ mb.memory.max + 1 :=
    (pieces_le _ _ _).trans (Nat.add_le_add_right low 1)
  rw [addRangeWith_eq contents]
  by_cases empty : memblockCapSize base size = 0
  · rw [if_pos empty]
    exact h
  have area := capped_end empty
  rw [if_neg empty]
  by_cases nil : l = []
  · subst l
    have large : 128 ≤ (mb.type .memory).max := (h.good.sized .memory).bounds.1
    have one := contents.cnt_eq
    have : missing mb .memory base size ≤ 1 := by
      rw [missing_eq contents]
      exact pieces_le ..
    simp only [List.length_nil] at one
    omega
  simp only [if_neg nil]
  by_cases zero : pieces (base + memblockCapSize base size) l base = 0
  · rw [if_pos zero]
    exact h
  rw [if_neg zero, ← missing_eq contents]
  refine (growMemory_outcome env depth h area few ok).bind ?_
  rintro ⟨mid, room⟩ ⟨state, enough⟩
  cases room with
  | false => exact state.inv
  | true =>
      have enough : (mid.type .memory).cnt + missing mb .memory base size ≤ (mid.type .memory).max :=
        enough rfl
      obtain ⟨l', contents'⟩ := (state.inv.good.inv .memory).contents
      have same : missing mb .memory base size = missing mid .memory base size := by
        have regions : mid.memory.regions = mb.memory.regions := state.regions
        simp only [missing, State.type, regions]
      rw [same, missing_eq contents'] at enough
      have ne' : l' ≠ [] := by
        rintro rfl
        obtain ⟨a, some⟩ := contents.occupied nil
        refine contents'.not_occupied ⟨a, ?_⟩
        rw [State.map, State.type, state.regions]
        exact some
      have edit : Edit .memory (withRange base size flags) mid (mid.setType .memory _) :=
        .set contents' (contents'.added base area flags) rfl rfl rfl
          (lookup_addedTo contents'.sound _ _ flags)
      have length := contents'.length_le_cnt
      have inv : Inv (mid.setType .memory _) := state.inv.good.inv.setType .memory
        (contents'.typeInv_added area flags (state.inv.good.inv .memory).max_pos
          ((Nat.add_le_add_right length _).trans enough))
      simp only [if_true, contents'.addInsert ne' area flags enough, ok_bind]
      exact state.inv.edit edit inv

/-- An isolation in `memory`: it has no range, finds no room, or cuts. -/
theorem isolateMemory_outcome (env : Env) (depth : Nat) {mb : State} (h : RunInv mb) (base size : Nat)
    (ok : Grows mb .memory 2 → Ready env mb ∧ MemoryOk env mb 2) :
    Outcome InDoubleArray (fun r => ∃ mid, MemoryGrown env 2 mb mid ∧
        ((r = (mid, 0, 0, 0) ∧ memblockCapSize base size = 0) ∨ r = (mid, -enomem, 0, 0) ∨
          (r.2.1 = 0 ∧ ∃ l, Isolated .memory base size mid r.1 r.2.2.1 r.2.2.2 l)))
      (isolateRangeWith (memblockDoubleArray env (depth + 2)) mb .memory base size) := by
  rw [isolateRangeWith_eq]
  by_cases empty : memblockCapSize base size = 0
  · rw [if_pos empty]
    exact ⟨mb, .refl h (fun grows => (ok grows).1), .inl ⟨rfl, empty⟩⟩
  have large : 128 ≤ mb.memory.max := (h.good.sized .memory).bounds.1
  rw [if_neg empty]
  refine (growMemory_outcome env depth h (capped_end empty) (by omega) ok).bind ?_
  rintro ⟨mid, room⟩ ⟨state, enough⟩
  cases room with
  | false => exact ⟨mid, state, .inr (.inl rfl)⟩
  | true =>
      obtain ⟨iso, startRgn, endRgn, l, cut, done⟩ :=
        isolateCut_ok empty (state.inv.good.inv .memory) (enough rfl)
      simp only [if_true, done]
      exact ⟨mid, state, .inr (.inr ⟨rfl, l, cut⟩)⟩

/-- An update of `memory` that changes no storage keeps what a doubling needs. -/
theorem Ready.edit {env : Env} {f : AddrMap → AddrMap} {mb mb' : State} (h : Ready env mb)
    (edit : Edit .memory f mb mb') : Ready env mb' := by
  intro resize slab ty
  rw [State.canResize_of_settings edit.settings_eq] at resize
  exact (h resize slab ty).edit_memory edit

/-- The state after an update of `memory`, with what the next update of `reserved` needs. -/
structure MemoryUpdated (env : Env) (mb mb' : State) : Prop where
  inv : RunInv mb'
  reserved : ¬ Grows mb .memory 2 → mb'.reserved = mb.reserved ∧ mb'.canResize = mb.canResize
  ready : (Grows mb .memory 2 ∨ Ready env mb) → Ready env mb'

theorem MemoryGrown.updated {env : Env} {mb mid : State} (h : MemoryGrown env 2 mb mid) :
    MemoryUpdated env mb mid := by
  refine ⟨h.inv, fun not => ?_, fun either => ?_⟩
  · rw [h.same not]
    exact ⟨rfl, rfl⟩
  · by_cases grows : Grows mb .memory 2
    · exact h.ready grows
    · rw [h.same grows]
      exact either.resolve_left grows

theorem MemoryUpdated.edit {env : Env} {f : AddrMap → AddrMap} {mb mid mb' : State}
    (h : MemoryUpdated env mb mid) (edit : Edit .memory f mid mb') (inv : Inv mb') :
    MemoryUpdated env mb mb' := by
  refine ⟨h.inv.edit edit inv, fun not => ?_, fun either => (h.ready either).edit edit⟩
  obtain ⟨reserved, resize⟩ := h.reserved not
  have same := edit.type_of_ne (by decide : TypeId.reserved ≠ .memory)
  exact ⟨Eq.trans same reserved, (State.canResize_of_settings edit.settings_eq).trans resize⟩

theorem removeMemory_outcome (env : Env) (depth : Nat) {mb : State} (h : RunInv mb) (base size : Nat)
    (ok : Grows mb .memory 2 → Ready env mb ∧ MemoryOk env mb 2) :
    Outcome InDoubleArray (fun r => MemoryUpdated env mb r.1)
      (removeRangeWith (memblockDoubleArray env (depth + 2)) mb .memory base size) := by
  refine (isolateMemory_outcome env depth h base size ok).bind ?_
  rintro ⟨iso, ret, startRgn, endRgn⟩ ⟨mid, state, outcome⟩
  rcases outcome with ⟨same, -⟩ | same | ⟨zero, l, cut⟩
  · cases same
    exact state.updated
  · cases same
    exact state.updated
  · simp only at zero cut
    subst zero
    obtain ⟨edit, inv, -⟩ := cut.removed state.inv.good.inv
    exact state.updated.edit edit inv

theorem setclrFlag_outcome (env : Env) {mb : State} (h : RunInv mb) (base size : Nat) (set : Bool)
    (flag : Flags) (ok : Grows mb .memory 2 → Ready env mb ∧ MemoryOk env mb 2) :
    Outcome InDoubleArray (fun r => RunInv r.1) (memblockSetclrFlag env mb base size set flag) := by
  refine (isolateMemory_outcome env 0 h base size ok).bind ?_
  rintro ⟨iso, ret, startRgn, endRgn⟩ ⟨mid, state, outcome⟩
  rcases outcome with ⟨same, -⟩ | same | ⟨zero, l, cut⟩
  · cases same
    obtain ⟨t, done, edit, inv⟩ := merge_memory state.inv.good.inv
    have done' : memblockMergeRegions (setclrRegions set flag iso.memory 0 (0 - 0)) = .ok t := done
    simp only [done', ok_bind, ne_eq, not_true_eq_false, if_false]
    exact state.inv.edit edit inv
  · cases same
    exact state.inv
  · simp only at zero cut
    subst zero
    obtain ⟨t, done, edit, inv⟩ := cut.reflagged state.inv.good.inv set flag
    simp only [done, ok_bind, ne_eq, not_true_eq_false, if_false]
    exact state.inv.edit edit inv

/-! ## Updates of `reserved` -/

theorem addReserved_outcome (env : Env) (depth : Nat) {mb : State} (h : RunInv mb) (base size : Nat)
    (flags : Flags)
    (ok : Grows mb .reserved (missing mb .reserved base size) →
      Ready env mb ∧ ReserveOk env mb base size) :
    Outcome InDoubleArray (fun r => RunInv r.1)
      (addRangeWith (memblockDoubleArray env (depth + 1)) mb .reserved base size flags) := by
  by_cases fixed : mb.canResize = true
  · obtain ⟨mb', ret, done, kept, -⟩ := addReserved_safe env depth h.good (fun _ => h.apart) base size
      flags (fun full => by
        obtain ⟨ready, enough⟩ := ok ⟨fixed, full⟩
        exact ⟨ready.writable _ _ _, enough⟩)
    rw [done]
    exact ⟨kept.good, kept.apart h.apart⟩
  by_cases fits : mb.reserved.cnt + missing mb .reserved base size ≤ mb.reserved.max
  · obtain ⟨mb', done, edit, inv, -⟩ := addRangeWith_fits (memblockDoubleArray env (depth + 1))
      h.good.inv .reserved flags fits
    rw [done]
    exact h.edit edit inv
  · rw [@addRangeWith_full env depth mb h fixed .reserved base size flags fits]
    exact h

theorem MemoryUpdated.ready_reserved {env : Env} {mb mb' : State} (h : MemoryUpdated env mb mb')
    (ok : Grows mb .reserved 2 → Ready env mb) (full : mb'.reserved.max < mb'.reserved.cnt + 2) :
    Ready env mb' := by
  by_cases grows : Grows mb .memory 2
  · exact h.ready (.inl grows)
  · obtain ⟨reserved, resize⟩ := h.reserved grows
    intro on
    rw [resize] at on
    rw [reserved] at full
    exact h.ready (.inr (ok ⟨on, full⟩)) (resize.trans on)

theorem removeReserved_outcome (env : Env) {mb : State} (h : RunInv mb) (base size : Nat)
    (ready : mb.reserved.max < mb.reserved.cnt + 2 → Ready env mb) :
    Outcome InDoubleArray (fun r => RunInv r.1 ∧ Freed base mb r.1)
      (memblockRemoveRange env mb .reserved base size) := by
  obtain ⟨mb', ret, done, freed⟩ := removeReserved_safe env 1 h.good (fun _ => h.apart) base size ready
  rw [memblockRemoveRange, nesting, done]
  exact ⟨⟨freed.good, freed.apart h.apart⟩, freed⟩

/-! ## Limits -/

/-- The removals from `reserved` that end `memblock_cap_memory_range`.  The first one splits
    nothing, so the second one finds the same room. -/
theorem capReserved_outcome (env : Env) {mb : State} (h : RunInv mb) (base end_ : Nat)
    (ready : mb.reserved.max < mb.reserved.cnt + 2 → Ready env mb) :
    Outcome InDoubleArray RunInv
      (memblockRemoveRange env mb .reserved 0 base >>= fun r =>
        memblockRemoveRange env r.1 .reserved end_ physAddrMax >>= fun r => .ok r.1) := by
  refine (removeReserved_outcome env h 0 base ready).bind ?_
  rintro ⟨mid, ret⟩ ⟨inv, freed⟩
  refine (removeReserved_outcome env inv end_ physAddrMax (fun full => ?_)).bind (fun r out => out.1)
  rcases freed.room rfl with same | room
  · simp only at same full
    rw [same] at full ⊢
    exact ready full
  · exact absurd room (Nat.not_le.mpr full)

theorem capMemoryRange_outcome (env : Env) {mb : State} (h : RunInv mb) (base size : Nat)
    (memory : Grows mb .memory 2 → Ready env mb ∧ MemoryOk env mb 2)
    (reserved : Grows mb .reserved 2 → Ready env mb) :
    Outcome InDoubleArray RunInv (memblockCapMemoryRange env mb base size) := by
  unfold memblockCapMemoryRange
  split
  · exact h
  refine (isolateMemory_outcome env 0 h base size memory).bind ?_
  rintro ⟨iso, ret, startRgn, endRgn⟩ ⟨mid, state, outcome⟩
  have finish {f : AddrMap → AddrMap} {mb' : State} (edit : Edit .memory f mid mb') (inv : Inv mb') :
      Outcome InDoubleArray RunInv (memblockRemoveRange env mb' .reserved 0 base >>= fun r =>
        memblockRemoveRange env r.1 .reserved (u64 (base + size)) physAddrMax >>= fun r => .ok r.1) := by
    have updated := state.updated.edit edit inv
    exact capReserved_outcome env updated.inv base _ (updated.ready_reserved reserved)
  rcases outcome with ⟨same, -⟩ | same | ⟨zero, l, cut⟩
  · cases same
    obtain ⟨edit, inv⟩ := removeMapped_memory state.inv.good.inv
    exact finish edit inv
  · cases same
    exact state.inv
  · simp only at zero cut
    subst zero
    obtain ⟨edit, inv⟩ := cut.capped state.inv.good.inv
    exact finish edit inv

theorem enforceMemoryLimit_outcome (env : Env) {mb : State} (h : RunInv mb) (limit : Nat)
    (memory : Grows mb .memory 2 → Ready env mb ∧ MemoryOk env mb 2)
    (reserved : Grows mb .reserved 2 → Ready env mb) :
    Outcome InDoubleArray RunInv (memblockEnforceMemoryLimit env mb limit) := by
  unfold memblockEnforceMemoryLimit
  split
  · exact h
  simp only
  split
  · exact h
  · refine (removeMemory_outcome env 0 h _ _ memory).bind (fun mid updated => ?_)
    exact (removeReserved_outcome env updated.inv _ _ (updated.ready_reserved reserved)).bind
      (fun r out => out.1)

theorem memLimitRemoveMap_outcome (env : Env) {mb : State} (h : RunInv mb) (limit : Nat)
    (memory : Grows mb .memory 2 → Ready env mb ∧ MemoryOk env mb 2)
    (reserved : Grows mb .reserved 2 → Ready env mb) :
    Outcome InDoubleArray RunInv (memblockMemLimitRemoveMap env mb limit) := by
  unfold memblockMemLimitRemoveMap
  split
  · exact h
  simp only
  split
  · exact h
  · exact capMemoryRange_outcome env h _ _ memory reserved

/-! ## Steps and runs -/

/-- When an operation that has to double an array goes well.  Operations that find room
    have no condition. -/
def StepOk (env : Env) (mb : State) : Op → Prop
  | .add base size =>
      Grows mb .memory (missing mb .memory base.toNat size.toNat) →
        Ready env mb ∧ MemoryOk env mb (missing mb .memory base.toNat size.toNat)
  | .reserve base size =>
      Grows mb .reserved (missing mb .reserved base.toNat size.toNat) →
        Ready env mb ∧ ReserveOk env mb base.toNat size.toNat
  | .free _ _ => Grows mb .reserved 2 → Ready env mb
  | .remove _ _ | .mark _ _ _ | .clear _ _ _ =>
      Grows mb .memory 2 → Ready env mb ∧ MemoryOk env mb 2
  | .capMemoryRange _ _ | .enforceMemoryLimit _ | .memLimitRemoveMap _ =>
      (Grows mb .memory 2 → Ready env mb ∧ MemoryOk env mb 2) ∧
        (Grows mb .reserved 2 → Ready env mb)
  | .allowResize | .setCurrentLimit _ | .setBottomUp _ => True

/-- The settings take no part in the invariant. -/
theorem RunInv.settings {mb mb' : State} (h : RunInv mb) (same : ∀ ty, mb'.type ty = mb.type ty) :
    RunInv mb' := by
  refine ⟨⟨fun ty => same ty ▸ h.good.inv ty, fun ty => same ty ▸ h.good.sized ty⟩, ?_⟩
  unfold Apart
  rw [same, same]
  exact h.apart

theorem step_outcome (env : Env) {mb : State} (h : RunInv mb) (op : Op) (ok : StepOk env mb op) :
    Outcome InDoubleArray RunInv (step env mb op) := by
  have settings {mb' : State} (memory : mb'.memory = mb.memory) (reserved : mb'.reserved = mb.reserved) :
      RunInv mb' := h.settings (fun ty => by cases ty <;> assumption)
  cases op with
  | add base size => exact (addMemory_outcome env 0 h _ _ _ ok).map
  | remove base size =>
      exact ((removeMemory_outcome env 0 h _ _ ok).mono (fun _ updated => updated.inv)).map
  | reserve base size => exact (addReserved_outcome env 1 h _ _ _ ok).map
  | free base size =>
      refine ((removeReserved_outcome env h _ _ (fun full on => ?_)).mono (fun _ out => out.1)).map
      exact ok ⟨on, full⟩ on
  | mark attr base size => cases attr <;> exact (setclrFlag_outcome env h _ _ _ _ ok).map
  | clear attr base size => cases attr <;> exact (setclrFlag_outcome env h _ _ _ _ ok).map
  | capMemoryRange base size => exact capMemoryRange_outcome env h _ _ ok.1 ok.2
  | enforceMemoryLimit limit => exact enforceMemoryLimit_outcome env h _ ok.1 ok.2
  | memLimitRemoveMap limit => exact memLimitRemoveMap_outcome env h _ ok.1 ok.2
  | allowResize => exact settings rfl rfl
  | setCurrentLimit limit => exact settings rfl rfl
  | setBottomUp enable => exact settings rfl rfl

/-- Every operation of the run meets its condition in the state it starts from. -/
def RunOk (mb : State) : List (Env × Op) → Prop
  | [] => True
  | (env, op) :: ops => StepOk env mb op ∧ ∀ mb', step env mb op = .ok mb' → RunOk mb' ops

theorem RunOk.of_append {mb : State} {ops rest : List (Env × Op)} (h : RunOk mb (ops ++ rest)) :
    RunOk mb ops := by
  induction ops generalizing mb with
  | nil => trivial
  | cons op ops ih => exact ⟨h.1, fun mb' done => ih (h.2 mb' done)⟩

theorem RunOk.append {mb : State} {ops rest : List (Env × Op)} (h : RunOk mb ops)
    (next : ∀ mb', run mb ops = .ok mb' → RunOk mb' rest) : RunOk mb (ops ++ rest) := by
  induction ops generalizing mb with
  | nil => exact next mb rfl
  | cons op ops ih =>
      obtain ⟨env, op⟩ := op
      refine ⟨h.1, fun mb' done => ih (h.2 mb' done) (fun mb'' rest => next mb'' ?_)⟩
      rw [run, done]
      exact rest

theorem run_outcome {mb : State} (h : RunInv mb) {ops : List (Env × Op)} (ok : RunOk mb ops) :
    Outcome InDoubleArray RunInv (run mb ops) := by
  induction ops generalizing mb with
  | nil => exact h
  | cons op ops ih =>
      obtain ⟨env, op⟩ := op
      have first := step_outcome env h op ok.1
      have rest := ok.2
      rw [run]
      cases done : step env mb op with
      | error bug =>
          rw [done] at first
          exact first
      | ok mb' =>
          rw [done] at first
          exact ih first (rest mb' done)

theorem RunInv.init : RunInv State.init := by
  refine ⟨⟨fun ty => ?_, fun ty => ?_⟩, ?_⟩
  · cases ty <;>
      exact ⟨by decide, by decide, by decide, .inr rfl, by unfold Bounded; decide, by decide⟩
  · cases ty <;> exact ⟨⟨7, by decide, by decide, rfl⟩, fun _ => ⟨rfl, rfl⟩⟩
  · intro m r held
    cases held

/-- In every run whose operations meet their condition, all states that are reached satisfy
    the representation invariant, and no `BUG_ON` but that of `memblock_double_array` is hit. -/
theorem runs_keep_invariant (ops : List (Env × Op)) (ok : RunOk State.init ops) :
    ∀ pre rest, ops = pre ++ rest →
      (∀ mb, run State.init pre = .ok mb → Inv mb) ∧
      (∀ bug, run State.init pre = .error bug →
        bug ≠ .insertRegion ∧ bug ≠ .mergeRegions ∧ bug ≠ .arrayOverlap ∧ bug ≠ .outOfFuel) := by
  rintro pre rest rfl
  have outcome := run_outcome .init ok.of_append
  constructor
  · intro mb done
    rw [done] at outcome
    exact outcome.good.inv
  · intro bug done
    rw [done] at outcome
    obtain rfl : bug = .doubleArray := outcome
    decide

/-! ## A count that is out of date -/

theorem run_append (mb : State) (ops rest : List (Env × Op)) :
    run mb (ops ++ rest) = run mb ops >>= fun mb => run mb rest := by
  induction ops generalizing mb with
  | nil => rfl
  | cons op ops ih =>
      obtain ⟨env, op⟩ := op
      rw [List.cons_append, run, run]
      cases step env mb op with
      | error bug => rfl
      | ok mb' => exact ih mb'

/-- A range above all regions, which touches none of them, is appended. -/
theorem addRangeWith_above (double : Doubling) {mb : State} {ty : TypeId} {l : List Region}
    (h : Contents (mb.type ty) l) {base size : Nat} (flags : Flags) (pos : 0 < size)
    (high : base + size ≤ physAddrMax) (above : ∀ e ∈ l, e.stop < base)
    (gaps : l.Pairwise (fun x y => x.stop < y.base)) (room : (mb.type ty).cnt + 1 ≤ (mb.type ty).max) :
    addRangeWith double mb ty base size flags =
      .ok (mb.setType ty { mb.type ty with
        regions := l ++ [⟨base, size, flags⟩], totalSize := total l + size }, 0) := by
  have cap : memblockCapSize base size = size := by
    unfold memblockCapSize
    omega
  have lt : base < base + size := by omega
  have low : ∀ e ∈ l, e.stop ≤ base := fun e member => (above e member).le
  have added : addedTo base (base + size) flags l = l ++ [⟨base, size, flags⟩] := by
    rw [addedTo, pieces_above low lt, fill_above low lt, if_neg (by decide), Nat.add_sub_cancel_left,
      coalesce_of_gaps]
    refine List.pairwise_append.mpr ⟨gaps, List.pairwise_singleton _ _, ?_⟩
    intro x hx y hy
    obtain rfl := List.mem_singleton.mp hy
    exact above x hx
  have type : addedType (mb.type ty) base (base + size) flags l = { mb.type ty with
      regions := l ++ [⟨base, size, flags⟩], totalSize := total l + size } := by
    simp [addedType, added, orDummy]
  rw [addRangeWith_eq h, cap, if_neg (by omega)]
  by_cases nil : l = []
  · simp only [if_pos nil, type]
  · have fits : (mb.type ty).cnt + pieces (base + size) l base ≤ (mb.type ty).max := by
      rw [pieces_above low lt]
      exact room
    have insert := h.addInsert nil high flags fits
    rw [pieces_above low lt] at fits
    simp only [if_neg nil, pieces_above low lt, growRounds, growWhile_fits fits, ok_bind, if_true,
      insert, type]
    rfl

/-- Regions with gaps between them, the first one at address zero. -/
def spread (n : Nat) : Region := ⟨if n = 0 then 0 else 0x800 + 0x4000 * n, 0x100, Flags.none⟩

/-- All memory lies in the last gap, and `k` of the regions are reserved. -/
def State.spread (k : Nat) : State :=
  { State.init with
    memory := { MemblockType.init with
      regions := [⟨0x1f9000, 0x3000, Flags.none⟩], totalSize := 0x3000 }
    reserved := { MemblockType.init with
      regions := orDummy ((List.range k).map Memblock.spread), totalSize := 0x100 * k } }

def reserveSpread (n : Nat) : Env × Op :=
  (Env.early, .reserve (.ofNat 64 (spread n).base) (.ofNat 64 (spread n).size))

theorem spread_gaps (k : Nat) :
    ((List.range k).map spread).Pairwise (fun x y => x.stop < y.base) := by
  rw [List.pairwise_map]
  refine List.pairwise_lt_range.imp (fun {a b} lt => ?_)
  simp only [stop, spread]
  split <;> split <;> omega

theorem contents_spread {k : Nat} (le : k ≤ 128) :
    Contents ((State.spread k).type .reserved) ((List.range k).map spread) := by
  refine ⟨⟨⟨?_, (spread_gaps k).imp Nat.le_of_lt⟩, ?_⟩, rfl, ?_⟩
  · intro e member
    obtain ⟨n, -, rfl⟩ := List.mem_map.mp member
    exact Nat.zero_lt_succ _
  · intro e member
    obtain ⟨n, low, rfl⟩ := List.mem_map.mp member
    have := List.mem_range.mp low
    simp only [stop, spread, physAddrMax]
    split <;> omega
  · induction k with
    | zero => rfl
    | succ k ih =>
        have := ih (by omega)
        rw [List.range_succ, List.map_append, total_append, ← this]
        rfl

theorem run_reserveSpread {k : Nat} (le : k ≤ 128) :
    run (State.spread 0) ((List.range k).map reserveSpread) = .ok (State.spread k) := by
  induction k with
  | zero => rfl
  | succ k ih =>
      rw [List.range_succ, List.map_append, run_append, ih (by omega), ok_bind]
      have contents := contents_spread (by omega : k ≤ 128)
      have small : (spread k).base < 2 ^ 64 := by
        simp only [spread]
        split <;> omega
      have above : ∀ e ∈ (List.range k).map spread, e.stop < (spread k).base := by
        have gaps := spread_gaps (k + 1)
        rw [List.range_succ, List.map_append] at gaps
        exact fun e member => (List.pairwise_append.mp gaps).2.2 e member _ (by simp)
      have room : ((State.spread k).type .reserved).cnt + 1 ≤ ((State.spread k).type .reserved).max := by
        rw [contents.cnt_eq]
        simp only [List.length_map, List.length_range, State.spread, State.type, MemblockType.init,
          initMemblockRegions]
        omega
      have pos : 0 < (spread k).size := Nat.zero_lt_succ _
      have added := addRangeWith_above (memblockDoubleArray Env.early nesting) contents Flags.none
        pos (by simp only [spread, physAddrMax]; split <;> omega) above
        (spread_gaps k) room
      have reserve : step Env.early (State.spread k) (reserveSpread k).2 = .ok (State.spread (k + 1)) := by
        simp only [step, reserveSpread, memblockReserve, memblockAddRange, BitVec.toNat_ofNat,
          Nat.mod_eq_of_lt small]
        rw [show (spread k).size % 2 ^ 64 = (spread k).size from rfl, added, ← contents.totalSize_eq]
        have next : orDummy ((List.range (k + 1)).map spread) =
            (List.range k).map spread ++ [spread k] := by
          rw [List.range_succ, List.map_append, orDummy_of_ne (by simp)]
          rfl
        simp only [discard, Except.map, State.setType, State.spread, next]
        rfl
      show (step Env.early (State.spread k) (reserveSpread k).2 >>= fun mb => run mb []) = _
      rw [reserve]
      rfl

theorem runOk_reserveSpread {k : Nat} (le : k ≤ 128) :
    RunOk (State.spread 0) ((List.range k).map reserveSpread) := by
  induction k with
  | zero => trivial
  | succ k ih =>
      rw [List.range_succ, List.map_append]
      refine (ih (by omega)).append (fun mb' done => ?_)
      cases (run_reserveSpread (by omega : k ≤ 128)).symm.trans done
      -- no array may grow yet
      exact ⟨fun grows => absurd grows.1 (by simp [State.spread, State.init]), fun _ _ => trivial⟩

/-- The same regions and a reservation that grows the array to insert one more. -/
def growingRun : List (Env × Op) :=
  (Env.early, .add 0x1f9000 0x3000) :: ((List.range 128).map reserveSpread ++
    [(Env.early, .allowResize), (Env.early, .reserve 0x1000 0x100)])

theorem add_spread : step Env.early State.init (.add 0x1f9000 0x3000) = .ok (State.spread 0) := by
  decide +kernel

theorem growingRun_ok : RunOk State.init growingRun := by
  refine ⟨fun grows => absurd grows.1 (by decide), fun mb' done => ?_⟩
  cases add_spread.symm.trans done
  refine (runOk_reserveSpread le_rfl).append (fun mb' done => ?_)
  cases (run_reserveSpread le_rfl).symm.trans done
  refine ⟨trivial, fun mb' done => ?_⟩
  cases done
  -- the array is still the static one and the range does not start at zero
  refine ⟨fun _ => ⟨fun _ _ ty pa array => ?_, .inr ⟨.inr (by decide), ?_⟩, ?_⟩, fun _ _ => trivial⟩
  · cases ty <;> cases array
  · intro block held
    cases held
  · intro slab
    cases slab

theorem growingRun_keeps_invariant :
    RunOk State.init growingRun ∧ ∃ mb, run State.init growingRun = .ok mb ∧ mb.reserved.max = 256 ∧
      Inv mb := by
  have last : (match run (State.spread 128)
      [(Env.early, .allowResize), (Env.early, .reserve 0x1000 0x100)] with
      | .ok mb => decide (mb.reserved.max = 256)
      | .error _ => false) = true := by decide +kernel
  split at last
  · rename_i mb done
    have all : run State.init growingRun = .ok mb := by
      rw [growingRun, run, add_spread, ok_bind, run_append, run_reserveSpread le_rfl, ok_bind, done]
    refine ⟨growingRun_ok, mb, all, of_decide_eq_true last, ?_⟩
    exact (runs_keep_invariant growingRun growingRun_ok growingRun [] (List.append_nil _).symm).1 mb all
  · cases last

/-- Memory in one gap, 128 reserved regions, and a reservation of everything up to the end
    of the last one. -/
def staleRun : List (Env × Op) :=
  (Env.early, .add 0x1f9000 0x3000) :: ((List.range 128).map reserveSpread ++
    [(Env.early, .allowResize), (Env.early, .reserve 0 0x1fc900)])

/-- The doubled array is put into a gap of the range and splits it.  The regions were counted
    before that, so the last insertion finds the array full. -/
theorem staleRun_hits_bug : run State.init staleRun = .error .insertRegion := by
  have last : (match run (State.spread 128)
      [(Env.early, .allowResize), (Env.early, .reserve 0 0x1fc900)] with
      | .error bug => decide (bug = .insertRegion)
      | .ok _ => false) = true := by decide +kernel
  rw [staleRun, run, add_spread, ok_bind, run_append, run_reserveSpread le_rfl, ok_bind]
  split at last
  · rename_i bug hit
    rw [hit, of_decide_eq_true last]
  · cases last

end Miracle.Memblock
