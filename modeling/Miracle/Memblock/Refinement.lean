import Miracle.Memblock.Growth

/-! # The operations on the map of an array

Read as a partial map from addresses to flags, an array is changed by an update in
two stages: the doublings that made room, which show in the map of `reserved` alone,
and the change that the operation is for.
-/

namespace Miracle.Memblock

open Extent

/-! ## What doublings leave alone -/

theorem Resized.map_memory {env : Env} {mb mb' : State} (h : Resized env mb mb') :
    mb'.map .memory = mb.map .memory := by
  induction h with
  | refl => rfl
  | trans _ _ ih ih' => exact ih'.trans ih
  | @double mb inner released inner' reserved ty addr _ release _ claim ih ih' =>
      have grown : (mb.setType ty (grown (mb.type ty) addr)).map .memory = mb.map .memory := by
        cases ty <;> rfl
      have released : released.map .memory = inner.map .memory := by
        rcases release with edit | rfl
        · exact edit.map_of_ne (by decide)
        · rfl
      rw [map_inSlab, claim.map_of_ne (by decide), ih', released, ih, grown]

/-- Arrays only grow, and without growth nothing has changed. -/
theorem Resized.grows {env : Env} {mb mb' : State} (h : Resized env mb mb')
    (pos : ∀ ty, 1 ≤ (mb.type ty).max) :
    (∀ ty, (mb.type ty).max ≤ (mb'.type ty).max) ∧
      (mb' = mb ∨ ∃ ty, (mb.type ty).max < (mb'.type ty).max) := by
  induction h with
  | refl => exact ⟨fun _ => le_rfl, .inl rfl⟩
  | trans _ _ ih ih' =>
      obtain ⟨le, cases⟩ := ih pos
      obtain ⟨le', cases'⟩ := ih' (fun ty => (pos ty).trans (le ty))
      refine ⟨fun ty => (le ty).trans (le' ty), ?_⟩
      rcases cases with rfl | ⟨ty, lt⟩
      · exact cases'
      · exact .inr ⟨ty, lt.trans_le (le' ty)⟩
  | @double mb inner released inner' reserved ty addr _ release _ claim ih ih' =>
      have grown (ty' : TypeId) : (mb.type ty').max ≤
          ((mb.setType ty (grown (mb.type ty) addr)).type ty').max ∧
          (ty' = ty → (mb.type ty').max <
            ((mb.setType ty (Memblock.grown (mb.type ty) addr)).type ty').max) := by
        by_cases same : ty' = ty
        · subst same
          have := pos ty'
          simp only [State.type_setType, Memblock.grown]
          omega
        · rw [State.type_setType_of_ne mb _ same]
          exact ⟨le_rfl, fun h => absurd h same⟩
      have le := (ih (fun ty => (pos ty).trans (grown ty).1)).1
      have released (ty' : TypeId) : (released.type ty').max = (inner.type ty').max := by
        rcases release with edit | rfl
        · exact edit.max_eq ty'
        · rfl
      have le' := (ih' (fun ty => by
        have := pos ty
        have := (grown ty).1
        have := le ty
        have := released ty
        omega)).1
      have final (ty' : TypeId) : ((reserved.setType ty { reserved.type ty with
          inSlab := env.slabIsAvailable }).type ty').max = (inner'.type ty').max := by
        rw [← claim.max_eq ty']
        cases ty <;> cases ty' <;> rfl
      have total (ty' : TypeId) := ((grown ty').1.trans (le ty')).trans
        ((released ty').symm.le.trans ((le' ty').trans (final ty').symm.le))
      refine ⟨total, .inr ⟨ty, ?_⟩⟩
      have := (grown ty).2 rfl
      have := le ty
      have := released ty
      have := le' ty
      have := final ty
      omega

/-- What stands between the state before an update and the state it changes. -/
structure ArraysMoved (env : Env) (mb mid : State) : Prop where
  resized : Resized env mb mid
  memory : mid.map .memory = mb.map .memory
  still : (∀ ty, (mid.type ty).max = (mb.type ty).max) → mid = mb

theorem Resized.arraysMoved {env : Env} {mb mid : State} (inv : Inv mb) (h : Resized env mb mid) :
    ArraysMoved env mb mid := by
  refine ⟨h, h.map_memory, ?_⟩
  intro same
  rcases (h.grows (fun ty => (inv ty).max_pos)).2 with eq | ⟨ty, lt⟩
  · exact eq
  · have := same ty
    omega

/-! ## The three updates -/

theorem merge_memory {mb : State} (inv : Inv mb) : ∃ t, memblockMergeRegions mb.memory = .ok t ∧
    Edit .memory id mb { mb with memory := t } ∧ Inv { mb with memory := t } := by
  obtain ⟨l, contents⟩ := (inv .memory).contents
  have fits := contents.length_le_cnt.trans (inv .memory).cnt_le
  refine ⟨_, contents.merge, .set contents contents.merged rfl rfl rfl (lookup_coalesce l),
    inv.setType .memory (contents.typeInv_merged fits (inv .memory).max_pos)⟩

/-- Without an isolated range all mapped regions go. -/
theorem removeMapped_memory {mb : State} (inv : Inv mb) :
    Edit .memory (fun m a => (m a).filter (fun flags => flags &&& Flags.nomap != 0)) mb
        { mb with memory := removeMapped mb.memory 0 mb.memory.cnt } ∧
      Inv { mb with memory := removeMapped mb.memory 0 mb.memory.cnt } := by
  obtain ⟨l, contents⟩ := (inv .memory).contents
  have sub : (l.filter memblockIsNomap).Sublist l := List.filter_sublist
  have kept : Contents { mb.memory with
      regions := orDummy (l.filter memblockIsNomap)
      totalSize := total (l.filter memblockIsNomap) } (l.filter memblockIsNomap) :=
    ⟨contents.sound.sublist sub, rfl, rfl⟩
  have fits := sub.length_le.trans (contents.length_le_cnt.trans (inv .memory).cnt_le)
  have mapped (a : Nat) : lookup (l.filter memblockIsNomap) a =
      (lookup l a).filter (fun flags => flags &&& Flags.nomap != 0) :=
    lookup_filter contents.sound.ordered (fun flags : Flags => flags &&& Flags.nomap != 0) a
  have all : removeMapped mb.memory 0 mb.memory.cnt = _ := removeMapped_all contents
  rw [all]
  exact ⟨.set contents kept rfl rfl rfl mapped,
    inv.setType .memory (kept.typeInv fits (inv .memory).max_pos)⟩

section

variable {base size : Nat} {mid iso : State} {startRgn endRgn : Nat} {l : List Region}
  (cut : Isolated .memory base size mid iso startRgn endRgn l) (inv : Inv mid)

include cut inv

omit inv in
theorem Isolated.memory : iso.memory = { mid.memory with
    regions := orDummy (cutAt base (base + memblockCapSize base size) l) } := by
  rw [cut.state]
  rfl

omit inv in
theorem Isolated.setMemory (t : MemblockType) : { iso with memory := t } = mid.setType .memory t := by
  rw [cut.state]
  rfl

/-- Changing the flags of the isolated regions and merging. -/
theorem Isolated.reflagged (set : Bool) (flag : Flags) :
    ∃ t, memblockMergeRegions (setclrRegions set flag iso.memory startRgn (endRgn - startRgn)) = .ok t ∧
      Edit .memory (reflagRange set flag base size) mid { iso with memory := t } ∧
      Inv { iso with memory := t } := by
  have le : base ≤ base + memblockCapSize base size := by omega
  have room := cut.room
  have flagged := cut.contents.reflagged set flag le
  have long := length_cutAt cut.contents.sound le (capped_end cut.nonempty)
  have := cut.contents.length_le_cnt
  rw [cut.memory, cut.first, cut.last, setclrRegions_isolated]
  refine ⟨_, flagged.merge, ?_⟩
  rw [cut.setMemory]
  refine ⟨.set cut.contents flagged.merged rfl rfl rfl (fun a => ?_),
    inv.setType .memory (flagged.typeInv_merged ?_ (inv .memory).max_pos)⟩
  · rw [lookup_coalesce, lookup_reflagged cut.contents.sound set flag le]
    rfl
  · rw [length_reflagged]
    exact long.trans (by omega : l.length + 2 ≤ (mid.type .memory).max)

omit inv in
theorem Isolated.capped_eq :
    { iso with
        memory := removeMapped (removeMapped iso.memory endRgn (iso.memory.cnt - endRgn)) 0 startRgn } =
      mid.setType .memory { mid.memory with
        regions := orDummy (Memblock.capped base (base + memblockCapSize base size) l)
        totalSize := total (Memblock.capped base (base + memblockCapSize base size) l) } := by
  have le : base ≤ base + memblockCapSize base size := by omega
  rw [cut.first, cut.last, removeMapped_isolated cut.contents le (cut.memory), cut.setMemory]
  rfl

omit inv in
theorem Isolated.capped_contents : Contents { mid.memory with
      regions := orDummy (Memblock.capped base (base + memblockCapSize base size) l)
      totalSize := total (Memblock.capped base (base + memblockCapSize base size) l) }
    (Memblock.capped base (base + memblockCapSize base size) l) :=
  ⟨(cut.contents.sound.cutAt (Nat.le_add_right _ _)).sublist (capped_sublist _ _ l), rfl, rfl⟩

/-- Removing the mapped regions outside the isolated ones. -/
theorem Isolated.capped :
    Edit .memory (capRange base size) mid { iso with
        memory := removeMapped (removeMapped iso.memory endRgn (iso.memory.cnt - endRgn)) 0 startRgn } ∧
      Inv { iso with
        memory := removeMapped (removeMapped iso.memory endRgn (iso.memory.cnt - endRgn)) 0 startRgn } := by
  have le : base ≤ base + memblockCapSize base size := by omega
  have room := cut.room
  have kept := cut.capped_contents
  have long := length_cutAt cut.contents.sound le (capped_end cut.nonempty)
  have := cut.contents.length_le_cnt
  rw [cut.capped_eq]
  refine ⟨.set cut.contents kept rfl rfl rfl (lookup_capped cut.contents.sound le),
    inv.setType .memory (kept.typeInv ?_ (inv .memory).max_pos)⟩
  exact ((capped_sublist _ _ l).length_le.trans long).trans (by omega : l.length + 2 ≤ (mid.type .memory).max)

end

theorem memblockSetclrFlag_ok {env : Env} {mb mb' : State} {base size : Nat} {set : Bool}
    {flag : Flags} {ret : Int} (inv : Inv mb)
    (h : memblockSetclrFlag env mb base size set flag = .ok (mb', ret)) :
    ∃ mid, Resized env mb mid ∧ Inv mb' ∧
      ((ret = 0 ∧ Edit .memory (reflagRange set flag base size) mid mb') ∨
        (ret = -enomem ∧ mb' = mid)) := by
  obtain ⟨⟨iso, ret', startRgn, endRgn⟩, isolate, h⟩ := bind_eq_ok h
  obtain ⟨mid, moved, inv', outcome⟩ :=
    isolateRangeWith_ok (doubleArray_faithful env nesting) inv isolate
  refine ⟨mid, moved, ?_⟩
  rcases outcome with ⟨rfl, empty, rfl, rfl, rfl⟩ | ⟨rfl, l, cut⟩ | ⟨rfl, rfl⟩
  · -- an empty range still merges
    obtain ⟨t, done, edit, kept⟩ := merge_memory inv'
    obtain ⟨t', merge, h⟩ := bind_eq_ok h
    cases done.symm.trans merge
    cases h
    exact ⟨kept, .inl ⟨rfl, edit.congr (reflagRange_of_empty empty set flag _).symm⟩⟩
  · obtain ⟨t, done, edit, kept⟩ := cut.reflagged inv' set flag
    obtain ⟨t', merge, h⟩ := bind_eq_ok h
    cases done.symm.trans merge
    cases h
    exact ⟨kept, .inl ⟨rfl, edit⟩⟩
  · cases h
    exact ⟨inv', .inr ⟨rfl, rfl⟩⟩

/-- The outcome of an update that is to change the map of `ty` by `f`. -/
def Refines (env : Env) (ty : TypeId) (f : AddrMap → AddrMap) (mb mb' : State) (ret : Int) : Prop :=
  ∃ mid, ArraysMoved env mb mid ∧
    ((ret = 0 ∧ Edit ty f mid mb') ∨ (ret = -enomem ∧ mb' = mid))

/-- A boot without slab. -/
def Env.early : Env :=
  { slabIsAvailable := false, kmalloc := fun _ _ => 0, kmalloc_le := by simp, kernelEnd := 0 }

/-- A state whose `reserved` array is full. -/
def State.full : State :=
  { State.init with
    memory := { MemblockType.init with
      regions := [⟨0x100000, 0x10000000, Flags.none⟩], totalSize := 0x10000000 }
    reserved := { MemblockType.init with
      regions := (List.range 128).map (fun n => ⟨0x200800 + 0x4000 * n, 0x100, Flags.none⟩)
      totalSize := 0x8000 }
    canResize := true }

theorem State.full_inv : Inv State.full := by
  intro ty
  cases ty with
  | memory =>
      refine ⟨by decide, by decide, by decide, .inl (by decide), ?_, by decide⟩
      unfold Bounded
      decide
  | reserved =>
      refine ⟨by decide +kernel, by decide +kernel, by decide +kernel, .inl (by decide +kernel), ?_,
        by decide +kernel⟩
      unfold Bounded
      decide +kernel

theorem addRange_full : ∃ mb',
    memblockAddRange Env.early State.full .reserved 0x100800 0x100 Flags.none = .ok (mb', 0) ∧
      mb'.map .reserved 0x100fe000 = some Flags.none := by
  have evaluated : (match memblockAddRange Env.early State.full .reserved 0x100800 0x100 Flags.none with
      | .ok (mb', ret) => decide (ret = 0 ∧ mb'.map .reserved 0x100fe000 = some Flags.none)
      | .error _ => false) = true := by decide +kernel
  split at evaluated
  · rename_i mb' ret result
    obtain ⟨rfl, mapped⟩ := of_decide_eq_true evaluated
    exact ⟨mb', result, mapped⟩
  · cases evaluated

end Miracle.Memblock
