import Miracle.Memblock.Find

/-! # Updates in the presence of array doublings

An update of one array may first double an array, and a doubling releases the block
of the old array and reserves that of the new one.  `Resized` describes what a series
of doublings does; `Edit` describes a change of the map of one array alone.  Every
update that returns is a series of doublings followed by one edit.
-/

namespace Miracle.Memblock

open Extent

namespace State

@[simp] theorem type_setType (mb : State) (ty : TypeId) (t : MemblockType) :
    (mb.setType ty t).type ty = t := by
  cases ty <;> rfl

theorem type_setType_of_ne (mb : State) {ty ty' : TypeId} (t : MemblockType) (h : ty' ≠ ty) :
    (mb.setType ty t).type ty' = mb.type ty' := by
  cases ty <;> cases ty' <;> first | rfl | exact absurd rfl h

@[simp] theorem setType_type (mb : State) (ty : TypeId) : mb.setType ty (mb.type ty) = mb := by
  cases ty <;> rfl

@[simp] theorem setType_setType (mb : State) (ty : TypeId) (t t' : MemblockType) :
    (mb.setType ty t).setType ty t' = mb.setType ty t' := by
  cases ty <;> rfl

/-- The partial map from addresses to flags that an array stands for. -/
def map (mb : State) (ty : TypeId) (a : Nat) : Option Flags := lookup (mb.type ty).regions a

end State

/-- Both arrays satisfy the representation invariant. -/
def Inv (mb : State) : Prop := ∀ ty, TypeInv (mb.type ty)

theorem Inv.setType {mb : State} (inv : Inv mb) (ty : TypeId) {t : MemblockType} (h : TypeInv t) :
    Inv (mb.setType ty t) := by
  intro ty'
  by_cases same : ty' = ty
  · subst same
    rwa [State.type_setType]
  · rw [State.type_setType_of_ne mb t same]
    exact inv ty'

/-! ## Changes of the maps -/

/-- The addresses of a range after its size has been capped. -/
def InRange (base size a : Nat) : Prop := base ≤ a ∧ a < base + memblockCapSize base size

instance (base size a : Nat) : Decidable (InRange base size a) :=
  inferInstanceAs (Decidable (_ ∧ _))

abbrev AddrMap := Nat → Option Flags

/-- The absent addresses of the range get the flags. -/
def withRange (base size : Nat) (flags : Flags) (m : AddrMap) : AddrMap :=
  fun a => (m a).or (if InRange base size a then some flags else none)

def withoutRange (base size : Nat) (m : AddrMap) : AddrMap :=
  fun a => if InRange base size a then none else m a

def reflagRange (set : Bool) (flag : Flags) (base size : Nat) (m : AddrMap) : AddrMap :=
  fun a => if InRange base size a then (m a).map (newFlags set flag) else m a

/-- The capped memory keeps the range and what is not mapped anyway. -/
def capRange (base size : Nat) (m : AddrMap) : AddrMap :=
  fun a => if InRange base size a then m a else (m a).filter (fun flags => flags &&& Flags.nomap != 0)

/-- The map of `ty` changes by `f`; the other array and the storage of both stay. -/
structure Edit (ty : TypeId) (f : AddrMap → AddrMap) (mb mb' : State) : Prop where
  frame : ∃ t, mb' = mb.setType ty t ∧ t.max = (mb.type ty).max ∧
    t.array = (mb.type ty).array ∧ t.inSlab = (mb.type ty).inSlab
  map_eq : mb'.map ty = f (mb.map ty)

/-- The block of memory that `memblock_reserve` was called for when the array was
    allocated; the static array and an array from the slab have none. -/
def heldBlock (t : MemblockType) : Option (Nat × Nat) :=
  match t.inSlab, t.array with
  | false, some pa => some (pa, arrayAllocSize t.max)
  | _, _ => none

def releaseBlock (t : MemblockType) (m : AddrMap) : AddrMap :=
  match heldBlock t with
  | some (pa, size) => withoutRange pa size m
  | none => m

def claimBlock (env : Env) (addr max : Nat) (m : AddrMap) : AddrMap :=
  if env.slabIsAvailable then m else withRange addr (arrayAllocSize max) Flags.none m

/-- The type with a doubled array at `addr`. -/
def grown (t : MemblockType) (addr : Nat) : MemblockType :=
  { t with max := t.max * 2, array := some addr }

/-- A series of array doublings.  A doubling moves the array, releases the old block
    and reserves the new one, and releasing and reserving can contain doublings; the
    release has no effect when it finds no room for the regions it would split. -/
inductive Resized (env : Env) : State → State → Prop where
  | refl (mb : State) : Resized env mb mb
  | trans {mb mb' mb'' : State} :
      Resized env mb mb' → Resized env mb' mb'' → Resized env mb mb''
  | double {mb inner released inner' reserved : State} (ty : TypeId) (addr : Nat) :
      Resized env (mb.setType ty (grown (mb.type ty) addr)) inner →
      (Edit .reserved (releaseBlock (mb.type ty)) inner released ∨ released = inner) →
      Resized env released inner' →
      Edit .reserved (claimBlock env addr ((mb.type ty).max * 2)) inner' reserved →
      Resized env mb
        (reserved.setType ty { reserved.type ty with inSlab := env.slabIsAvailable })

/-! ## The range of an update -/

theorem capped_end {base size : Nat} (h : memblockCapSize base size ≠ 0) :
    base + memblockCapSize base size ≤ physAddrMax := by
  unfold memblockCapSize at *
  omega

theorem u64_capped_end {base size : Nat} (h : memblockCapSize base size ≠ 0) :
    u64 (base + memblockCapSize base size) = base + memblockCapSize base size := by
  have := capped_end h
  refine u64_of_lt ?_
  simp only [physAddrMax] at this
  omega

theorem not_inRange_of_empty {base size : Nat} (h : memblockCapSize base size = 0) (a : Nat) :
    ¬ InRange base size a := by
  simp only [InRange, h]
  omega

theorem withRange_of_empty {base size : Nat} (h : memblockCapSize base size = 0) (flags : Flags)
    (m : AddrMap) : withRange base size flags m = m := by
  funext a
  simp [withRange, not_inRange_of_empty h]

theorem withoutRange_of_empty {base size : Nat} (h : memblockCapSize base size = 0) (m : AddrMap) :
    withoutRange base size m = m := by
  funext a
  simp [withoutRange, not_inRange_of_empty h]

theorem reflagRange_of_empty {base size : Nat} (h : memblockCapSize base size = 0) (set : Bool)
    (flag : Flags) (m : AddrMap) : reflagRange set flag base size m = m := by
  funext a
  simp [reflagRange, not_inRange_of_empty h]

theorem Edit.same {ty : TypeId} {f : AddrMap → AddrMap} {mb : State} (h : f (mb.map ty) = mb.map ty) :
    Edit ty f mb mb :=
  ⟨⟨mb.type ty, by simp⟩, h.symm⟩

theorem Edit.congr {ty : TypeId} {f g : AddrMap → AddrMap} {mb mb' : State} (h : Edit ty f mb mb')
    (same : f (mb.map ty) = g (mb.map ty)) : Edit ty g mb mb' := ⟨h.frame, h.map_eq.trans same⟩

theorem Edit.set {ty : TypeId} {f : AddrMap → AddrMap} {mb : State} {t : MemblockType}
    {l l' : List Region} (old : Contents (mb.type ty) l) (new : Contents t l')
    (max : t.max = (mb.type ty).max) (array : t.array = (mb.type ty).array)
    (inSlab : t.inSlab = (mb.type ty).inSlab) (map : ∀ a, lookup l' a = f (lookup l) a) :
    Edit ty f mb (mb.setType ty t) := by
  refine ⟨⟨t, rfl, max, array, inSlab⟩, ?_⟩
  have before : mb.map ty = lookup l := funext old.lookup_eq
  funext a
  rw [before, ← map a]
  simp only [State.map, State.type_setType]
  exact new.lookup_eq a

theorem Edit.max_eq {ty : TypeId} {f : AddrMap → AddrMap} {mb mb' : State} (h : Edit ty f mb mb')
    (ty' : TypeId) : (mb'.type ty').max = (mb.type ty').max := by
  obtain ⟨t, rfl, max, -, -⟩ := h.frame
  by_cases same : ty' = ty
  · subst same
    rwa [State.type_setType]
  · rw [State.type_setType_of_ne mb t same]

theorem Edit.map_of_ne {ty ty' : TypeId} {f : AddrMap → AddrMap} {mb mb' : State}
    (h : Edit ty f mb mb') (ne : ty' ≠ ty) : mb'.map ty' = mb.map ty' := by
  obtain ⟨t, rfl, -⟩ := h.frame
  funext a
  rw [State.map, State.map, State.type_setType_of_ne mb t ne]

/-! ## `memblock_add_range` -/

/-- The update as a function of the regions of its array. -/
theorem addRangeWith_eq {double : Doubling} {mb : State} {ty : TypeId} {l : List Region}
    (h : Contents (mb.type ty) l) (base size : Nat) (flags : Flags) :
    addRangeWith double mb ty base size flags =
      if memblockCapSize base size = 0 then .ok (mb, 0)
      else
        let end_ := base + memblockCapSize base size
        if l = [] then .ok (mb.setType ty (addedType (mb.type ty) base end_ flags l), 0)
        else if pieces end_ l base = 0 then .ok (mb, 0)
        else growWhile double ty (pieces end_ l base) base (memblockCapSize base size) growRounds mb
          >>= fun (mb, room) =>
            if room then
              addInsert (mb.type ty) base end_ flags >>= fun t => .ok (mb.setType ty t, 0)
            else .ok (mb, -enomem) := by
  by_cases zero : memblockCapSize base size = 0
  · simp [addRangeWith, zero]
  · have high := capped_end zero
    simp only [addRangeWith, if_neg zero, u64_capped_end zero]
    by_cases empty : l = []
    · subst l
      have regions : (mb.type ty).regions = [Region.dummy] := h.regions_eq
      have first : ((mb.type ty).rgn 0).size = 0 := by simp [MemblockType.rgn, regions, Region.dummy]
      have lt : base < base + memblockCapSize base size := by omega
      simp [first, addedType, addedTo, pieces, fill, gap, coalesce, coalesceFrom, regions, orDummy,
        lt]
    · have regions : (mb.type ty).regions = l := h.regions_eq.trans (orDummy_of_ne empty)
      have first : ((mb.type ty).rgn 0).size ≠ 0 := by
        obtain ⟨r, rest, rfl⟩ := List.exists_cons_of_ne_nil empty
        have := h.sound.ordered.pos r (by simp)
        simp only [MemblockType.rgn, regions, List.getD_cons_zero]
        omega
      obtain ⟨idx, b, count⟩ := addRound_count (t := mb.type ty) (regions ▸ h.sound.bounded) base
        (base + memblockCapSize base size) flags
      rw [regions] at count
      simp only [if_neg first, if_neg empty, count, ok_bind]
      rfl

/-! ## What a doubling must respect -/

def Occupied (mb : State) (ty : TypeId) : Prop := ∃ a, (mb.map ty a).isSome

theorem Contents.occupied {mb : State} {ty : TypeId} {l : List Region} (h : Contents (mb.type ty) l)
    (ne : l ≠ []) : Occupied mb ty := by
  obtain ⟨r, rest, rfl⟩ := List.exists_cons_of_ne_nil ne
  have pos := h.sound.ordered.pos r (by simp)
  refine ⟨r.base, ?_⟩
  rw [State.map, h.lookup_eq, lookup_cons, if_pos (by simp only [Contains, stop]; omega)]
  rfl

theorem Contents.not_occupied {mb : State} {ty : TypeId} (h : Contents (mb.type ty) []) :
    ¬ Occupied mb ty := by
  rintro ⟨a, some⟩
  rw [State.map, h.lookup_eq] at some
  cases some

theorem lookup_new (base size : Nat) (flags : Flags) (a : Nat) :
    lookup [Region.dummy, ⟨base, base + memblockCapSize base size - base, flags⟩] a =
      if InRange base size a then some flags else none := by
  have empty : ¬ Region.dummy.Contains a := by
    simp only [Contains, stop, Region.dummy]
    omega
  have range : (⟨base, base + memblockCapSize base size - base, flags⟩ : Region).Contains a ↔
      InRange base size a := by
    rw [Nat.add_sub_cancel_left]
    exact Iff.rfl
  rw [lookup_cons, if_neg empty, lookup_cons, lookup_nil]
  by_cases inside : InRange base size a
  · rw [if_pos (range.mpr inside), if_pos inside]
  · rw [if_neg (mt range.mp inside), if_neg inside]

/-- A doubling that returns keeps the invariant and does nothing but move arrays. -/
structure Faithful (env : Env) (double : Doubling) : Prop where
  inv : ∀ {mb ty start size mb' ret}, Inv mb → start + size ≤ physAddrMax →
    double mb ty start size = .ok (mb', ret) → Inv mb'
  resized : ∀ {mb ty start size mb' ret}, Inv mb → start + size ≤ physAddrMax →
    double mb ty start size = .ok (mb', ret) → Resized env mb mb'
  occupied : ∀ {mb ty start size mb' ret}, env.slabIsAvailable = false → Inv mb →
    start + size ≤ physAddrMax → double mb ty start size = .ok (mb', ret) →
      Occupied mb .reserved → Occupied mb' .reserved

/-- The array of `ty` cut at both ends of a range that is not empty. -/
structure Isolated (ty : TypeId) (base size : Nat) (mid mb' : State) (startRgn endRgn : Nat)
    (l : List Region) : Prop where
  nonempty : memblockCapSize base size ≠ 0
  room : (mid.type ty).cnt + 2 ≤ (mid.type ty).max
  contents : Contents (mid.type ty) l
  state : mb' = mid.setType ty
    { mid.type ty with regions := orDummy (cutAt base (base + memblockCapSize base size) l) }
  first : startRgn = (cutIndices base (base + memblockCapSize base size) l).1
  last : endRgn = (cutIndices base (base + memblockCapSize base size) l).2

/-- The cutting of `memblock_isolate_range` once there is room. -/
def isolateCut (mb : State) (ty : TypeId) (base end_ : Nat) : Except Bug (State × Int × Nat × Nat) :=
  isolateLoop base end_ ((mb.type ty).cnt + 3) ⟨mb.type ty, 0, 0, 0⟩ >>= fun s =>
    .ok (mb.setType ty s.type, 0, s.startRgn, s.endRgn)

theorem isolateRangeWith_eq (double : Doubling) (mb : State) (ty : TypeId) (base size : Nat) :
    isolateRangeWith double mb ty base size =
      if memblockCapSize base size = 0 then .ok (mb, 0, 0, 0)
      else growWhile double ty 2 base (memblockCapSize base size) growRounds mb >>= fun (mb, room) =>
        if room then isolateCut mb ty base (base + memblockCapSize base size)
        else .ok (mb, -enomem, 0, 0) := by
  by_cases zero : memblockCapSize base size = 0
  · simp [isolateRangeWith, zero]
  · simp only [isolateRangeWith, if_neg zero, u64_capped_end zero]
    rfl

theorem isolateCut_ok {mb : State} {ty : TypeId} {base size : Nat}
    (nonempty : memblockCapSize base size ≠ 0) (inv : TypeInv (mb.type ty))
    (room : (mb.type ty).cnt + 2 ≤ (mb.type ty).max) :
    ∃ iso startRgn endRgn l, Isolated ty base size mb iso startRgn endRgn l ∧
      isolateCut mb ty base (base + memblockCapSize base size) = .ok (iso, 0, startRgn, endRgn) := by
  obtain ⟨l, contents⟩ := inv.contents
  have lt : base < base + memblockCapSize base size := by omega
  obtain ⟨idx, loop⟩ := isolateLoop_contents contents room lt
  refine ⟨_, _, _, l, ⟨nonempty, room, contents, rfl, rfl, rfl⟩, ?_⟩
  rw [isolateCut, loop, ok_bind]

/-- The removal of what has been isolated leaves what lies outside the range. -/
theorem Isolated.removed_eq {ty : TypeId} {base size : Nat} {mid iso : State} {startRgn endRgn : Nat}
    {l : List Region} (cut : Isolated ty base size mid iso startRgn endRgn l) :
    iso.setType ty (removeRegions (iso.type ty) startRgn (endRgn - startRgn)) =
      mid.setType ty { mid.type ty with
        regions := orDummy (outside base (base + memblockCapSize base size) l)
        totalSize := total (outside base (base + memblockCapSize base size) l) } := by
  have le : base ≤ base + memblockCapSize base size := by omega
  simp only [cut.state, cut.first, cut.last, State.type_setType, State.setType_setType,
    removeRegions_isolated cut.contents le]

theorem Isolated.removed {ty : TypeId} {base size : Nat} {mid iso : State} {startRgn endRgn : Nat}
    {l : List Region} (cut : Isolated ty base size mid iso startRgn endRgn l) (inv : Inv mid) :
    Edit ty (withoutRange base size) mid
        (iso.setType ty (removeRegions (iso.type ty) startRgn (endRgn - startRgn))) ∧
      Inv (iso.setType ty (removeRegions (iso.type ty) startRgn (endRgn - startRgn))) ∧
      ((iso.setType ty (removeRegions (iso.type ty) startRgn (endRgn - startRgn))).type ty).cnt ≤
        (mid.type ty).cnt + if base = 0 then 0 else 1 := by
  have high := capped_end cut.nonempty
  have le : base ≤ base + memblockCapSize base size := by omega
  have room := cut.room
  have removed := cut.contents.removed le
  rw [cut.removed_eq]
  refine ⟨.set cut.contents removed rfl rfl rfl (lookup_outside cut.contents.sound le),
    inv.setType ty (cut.contents.typeInv_removed (by omega) le), ?_⟩
  have := length_outside cut.contents.sound le
  have := cut.contents.length_le_cnt
  have := (inv ty).cnt_pos
  rw [State.type_setType, removed.cnt_eq]
  split
  · rename_i zero
    have := length_outside_zero l (base + memblockCapSize base size)
    rw [zero] at *
    omega
  · omega

section

variable {env : Env} {double : Doubling} (faithful : Faithful env double) {ty : TypeId}

include faithful

/-- The growing loop: a run lemma over its rounds. -/
theorem growWhile_ok {need start size : Nat} (area : start + size ≤ physAddrMax) {fuel : Nat}
    {mb mb' : State} {room : Bool} (inv : Inv mb)
    (h : growWhile double ty need start size fuel mb = .ok (mb', room)) :
    Inv mb' ∧ Resized env mb mb' ∧
      (env.slabIsAvailable = false → Occupied mb .reserved → Occupied mb' .reserved) ∧
      (room = true → (mb'.type ty).cnt + need ≤ (mb'.type ty).max) := by
  induction fuel generalizing mb with
  | zero => cases h
  | succ fuel ih =>
      simp only [growWhile] at h
      split at h
      · obtain ⟨⟨mid, ret⟩, doubled, h⟩ := bind_eq_ok h
        have inv' := faithful.inv inv area doubled
        have moved := faithful.resized inv area doubled
        simp only at h
        split at h
        · cases h
          exact ⟨inv', moved, fun slab => faithful.occupied slab inv area doubled, by simp⟩
        · obtain ⟨inv'', moved', occupied, fits⟩ := ih inv' h
          exact ⟨inv'', moved.trans moved',
            fun slab old => occupied slab (faithful.occupied slab inv area doubled old), fits⟩
      · cases h
        exact ⟨inv, .refl _, fun _ => id, fun _ => by omega⟩

/-- A range update that returns: doublings, then the addition if there was room. -/
theorem addRangeWith_ok {mb mb' : State} {base size : Nat} {flags : Flags} {ret : Int} (inv : Inv mb)
    (h : addRangeWith double mb ty base size flags = .ok (mb', ret)) :
    ∃ mid, Resized env mb mid ∧ Inv mid ∧
      (env.slabIsAvailable = false → Occupied mb .reserved → Occupied mid .reserved) ∧
      ((ret = 0 ∧ Edit ty (withRange base size flags) mid mb' ∧
          (Inv mb' ∨ Occupied mb ty ∧ ¬ Occupied mid ty ∧ ∃ l, Contents (mb.type ty) l ∧
            growWhile double ty (pieces (base + memblockCapSize base size) l base) base
              (memblockCapSize base size) growRounds mb = .ok (mid, true))) ∨
        (ret = -enomem ∧ mb' = mid)) := by
  obtain ⟨l, contents⟩ := (inv ty).contents
  rw [addRangeWith_eq contents] at h
  split at h
  · cases h
    exact ⟨mb, .refl _, inv, fun _ => id, .inl ⟨rfl, .same (withRange_of_empty ‹_› flags _), .inl inv⟩⟩
  rename_i zero
  have high := capped_end zero
  simp only at h
  split at h
  · -- the first region of an empty array
    subst l
    cases h
    have pos := (inv ty).max_pos
    have one : pieces (base + memblockCapSize base size) ([] : List Region) base ≤ 1 := by
      unfold pieces
      split <;> omega
    have fits : ([] : List Region).length +
        pieces (base + memblockCapSize base size) ([] : List Region) base ≤ (mb.type ty).max := by
      rw [List.length_nil]
      omega
    have inv' : Inv (mb.setType ty _) := inv.setType ty (contents.typeInv_added high flags pos fits)
    refine ⟨mb, .refl _, inv, fun _ => id, .inl ⟨rfl, ?_, .inl inv'⟩⟩
    exact .set contents (contents.added base high flags) rfl rfl rfl
      (lookup_addedTo contents.sound _ _ flags)
  · rename_i ne
    split at h
    · rename_i covered
      cases h
      refine ⟨mb, .refl _, inv, fun _ => id, .inl ⟨rfl, ?_, .inl inv⟩⟩
      have edit : Edit ty (withRange base size flags) mb (mb.setType ty _) :=
        .set contents (contents.added base high flags) rfl rfl rfl
          (lookup_addedTo contents.sound _ _ flags)
      rwa [contents.addedType_eq_self flags covered, State.setType_type] at edit
    · obtain ⟨⟨mid, room⟩, grow, h⟩ := bind_eq_ok h
      obtain ⟨inv', moved, occupied, fits⟩ := growWhile_ok faithful (by omega) inv grow
      refine ⟨mid, moved, inv', occupied, ?_⟩
      cases room with
      | false =>
          cases h
          exact .inr ⟨rfl, rfl⟩
      | true =>
          obtain ⟨l', contents'⟩ := (inv' ty).contents
          have fits := fits rfl
          obtain ⟨t, insert, h⟩ := bind_eq_ok h
          cases h
          refine .inl ⟨rfl, ?_⟩
          by_cases empty : l' = []
          · subst l'
            have lt : base < base + memblockCapSize base size := by omega
            have pos : 1 ≤ (mid.type ty).cnt := (inv' ty).cnt_pos
            rw [contents'.addInsert_empty lt high flags (by omega)] at insert
            cases insert
            refine ⟨⟨⟨_, rfl, rfl, rfl, rfl⟩, ?_⟩,
              .inr ⟨contents.occupied ne, contents'.not_occupied, l, contents, grow⟩⟩
            funext a
            have before : mid.map ty a = none := contents'.lookup_eq a
            simp only [State.map, State.type_setType, lookup_coalesce]
            rw [lookup_new, withRange, before]
            rfl
          · by_cases room : (mid.type ty).cnt + pieces (base + memblockCapSize base size) l' base ≤
                (mid.type ty).max
            · rw [contents'.addInsert empty high flags room] at insert
              cases insert
              have := contents'.length_le_cnt
              refine ⟨.set contents' (contents'.added base high flags) rfl rfl rfl
                (lookup_addedTo contents'.sound _ _ flags), .inl ?_⟩
              exact inv'.setType ty (contents'.typeInv_added high flags (inv' ty).max_pos (by omega))
            · rw [contents'.addInsert_full empty flags (inv' ty).cnt_le (by omega)] at insert
              cases insert

theorem isolateRangeWith_ok {mb mb' : State} {base size : Nat} {ret : Int} {startRgn endRgn : Nat}
    (inv : Inv mb)
    (h : isolateRangeWith double mb ty base size = .ok (mb', ret, startRgn, endRgn)) :
    ∃ mid, Resized env mb mid ∧ Inv mid ∧
      ((ret = 0 ∧ memblockCapSize base size = 0 ∧ mb' = mid ∧ startRgn = 0 ∧ endRgn = 0) ∨
        (ret = 0 ∧ ∃ l, Isolated ty base size mid mb' startRgn endRgn l) ∨
        (ret = -enomem ∧ mb' = mid)) := by
  rw [isolateRangeWith_eq] at h
  split at h
  · cases h
    exact ⟨mb, .refl _, inv, .inl ⟨rfl, ‹_›, rfl, rfl, rfl⟩⟩
  · rename_i nonempty
    obtain ⟨⟨mid, room⟩, grow, h⟩ := bind_eq_ok h
    obtain ⟨inv', moved, -, fits⟩ := growWhile_ok faithful (capped_end nonempty) inv grow
    refine ⟨mid, moved, inv', .inr ?_⟩
    cases room with
    | false =>
        cases h
        exact .inr ⟨rfl, rfl⟩
    | true =>
        obtain ⟨iso, startRgn', endRgn', l, cut, done⟩ :=
          isolateCut_ok nonempty (inv' ty) (fits rfl)
        cases done.symm.trans h
        exact .inl ⟨rfl, l, cut⟩

theorem removeRangeWith_ok {mb mb' : State} {base size : Nat} {ret : Int} (inv : Inv mb)
    (h : removeRangeWith double mb ty base size = .ok (mb', ret)) :
    ∃ mid, Resized env mb mid ∧ Inv mid ∧ Inv mb' ∧
      ((ret = 0 ∧ Edit ty (withoutRange base size) mid mb') ∨ (ret = -enomem ∧ mb' = mid)) := by
  obtain ⟨⟨iso, ret', startRgn, endRgn⟩, isolate, h⟩ := bind_eq_ok h
  obtain ⟨mid, moved, inv', outcome⟩ := isolateRangeWith_ok faithful inv isolate
  refine ⟨mid, moved, inv', ?_⟩
  rcases outcome with ⟨rfl, empty, rfl, rfl, rfl⟩ | ⟨rfl, l, cut⟩ | ⟨rfl, rfl⟩
  · simp [removeRegions] at h
    obtain ⟨rfl, rfl⟩ := h
    exact ⟨inv', .inl ⟨rfl, .same (withoutRange_of_empty empty _)⟩⟩
  · obtain ⟨edit, inv'', -⟩ := cut.removed inv'
    cases h
    exact ⟨inv'', .inl ⟨rfl, edit⟩⟩
  · cases h
    exact ⟨inv', .inr ⟨rfl, rfl⟩⟩

end

/-! ## `memblock_double_array` -/

theorem arrayAllocSize_double (max : Nat) :
    arrayAllocSize (max * 2) = pageAlign (max * sizeofRegion * 2) := by
  rw [arrayAllocSize, Nat.mul_right_comm]

theorem inv_grown {mb : State} (inv : Inv mb) (ty : TypeId) (addr : Nat) :
    Inv (mb.setType ty (grown (mb.type ty) addr)) := by
  refine inv.setType ty ?_
  obtain ⟨l, h⟩ := (inv ty).contents
  have := (inv ty).cnt_le
  have := (inv ty).max_pos
  have := h.length_le_cnt
  exact Contents.typeInv (t := grown (mb.type ty) addr) ⟨h.sound, h.regions_eq, h.totalSize_eq⟩
    (by simp only [grown]; omega) (by simp only [grown]; omega)

theorem inv_inSlab {mb : State} (inv : Inv mb) (ty : TypeId) (inSlab : Bool) :
    Inv (mb.setType ty { mb.type ty with inSlab := inSlab }) := by
  obtain ⟨h1, h2, h3, h4, h5, h6⟩ := inv ty
  exact inv.setType ty ⟨h1, h2, h3, h4, h5, h6⟩

theorem freeOldArray_eq (double : Doubling) (mb : State) (old : MemblockType) :
    freeOldArray double mb old =
      match heldBlock old with
      | some (pa, size) => removeRangeWith double mb .reserved pa size >>= fun r => .ok r.1
      | none => .ok mb := by
  obtain ⟨_, _, _, array, inSlab⟩ := old
  cases inSlab <;> cases array <;> rfl

theorem freeOldArray_ok {env : Env} {double : Doubling} (faithful : Faithful env double)
    {mb mb' : State} {old : MemblockType} (inv : Inv mb)
    (h : freeOldArray double mb old = .ok mb') :
    Inv mb' ∧ ∃ inner, Resized env mb inner ∧
      (Edit .reserved (releaseBlock old) inner mb' ∨ mb' = inner) := by
  rw [freeOldArray_eq] at h
  unfold releaseBlock
  cases held : heldBlock old with
  | none =>
      rw [held] at h
      cases h
      exact ⟨inv, mb, .refl _, .inr rfl⟩
  | some block =>
      rw [held] at h
      obtain ⟨⟨freed, ret⟩, remove, h⟩ := bind_eq_ok h
      cases h
      obtain ⟨inner, moved, -, inv', outcome⟩ := removeRangeWith_ok faithful inv remove
      refine ⟨inv', inner, moved, ?_⟩
      rcases outcome with ⟨-, edit⟩ | ⟨-, same⟩
      · exact .inl edit
      · exact .inr same

theorem reserveNewArray_ok {env : Env} {double : Doubling} (faithful : Faithful env double)
    {mb mb' : State} {addr max : Nat} (inv : Inv mb)
    (h : reserveNewArray env double mb addr max = .ok mb') :
    Inv mb' ∧ ∃ inner, Resized env mb inner ∧
      Edit .reserved (claimBlock env addr max) inner mb' := by
  unfold reserveNewArray at h
  split at h
  · rename_i slab
    cases h
    exact ⟨inv, mb, .refl _, .same (by simp [claimBlock, slab])⟩
  · rename_i slab
    have slab : env.slabIsAvailable = false := by simpa using slab
    obtain ⟨⟨reserved, ret⟩, add, h⟩ := bind_eq_ok h
    simp only at h
    split at h
    · cases h
    · cases h
      obtain ⟨inner, moved, -, occupied, outcome⟩ := addRangeWith_ok faithful inv add
      rcases outcome with ⟨-, edit, inv' | ⟨before, after, -⟩⟩ | ⟨rfl, -⟩
      · refine ⟨inv', inner, moved, ?_⟩
        have claim : claimBlock env addr max = withRange addr (arrayAllocSize max) Flags.none := by
          funext m
          simp [claimBlock, slab]
        rwa [claim]
      · exact absurd (occupied slab before) after
      · rename_i zero
        exact absurd zero (by decide)

theorem Edit.occupied_claim {env : Env} {addr max : Nat} {mb mb' : State}
    (slab : env.slabIsAvailable = false) (pos : 0 < arrayAllocSize max) (low : addr < physAddrMax)
    (h : Edit .reserved (claimBlock env addr max) mb mb') : Occupied mb' .reserved := by
  have inside : InRange addr (arrayAllocSize max) addr := by
    simp only [InRange, memblockCapSize]
    omega
  refine ⟨addr, ?_⟩
  simp only [h.map_eq, claimBlock, slab, Bool.false_eq_true, if_false, withRange, if_pos inside]
  cases mb.map .reserved addr <;> rfl

theorem map_inSlab (mb : State) (ty ty' : TypeId) (inSlab : Bool) :
    (mb.setType ty { mb.type ty with inSlab := inSlab }).map ty' = mb.map ty' := by
  cases ty <;> cases ty' <;> rfl

/-- The block of a doubled array holds the array and lies below the end of memory. -/
theorem newArray_fits {env : Env} {mb : State} {ty : TypeId} {start size : Nat} (inv : Inv mb)
    (slab : env.slabIsAvailable = false) (area : start + size ≤ physAddrMax)
    (found : findNewArray env mb ty start size ≠ 0)
    (written : ¬ overruns mb (findNewArray env mb ty start size)
      ((mb.type ty).max * sizeofRegion * 2) = true) :
    0 < arrayAllocSize ((mb.type ty).max * 2) ∧
      InGap mb.reserved (findNewArray env mb ty start size)
        (findNewArray env mb ty start size + arrayAllocSize ((mb.type ty).max * 2)) ∧
      (ty = .reserved → start ≠ 0 → start + size ≤ findNewArray env mb ty start size ∨
        findNewArray env mb ty start size + arrayAllocSize ((mb.type ty).max * 2) ≤ start) := by
  rw [arrayAllocSize_double]
  have large : (mb.type ty).max * sizeofRegion * 2 ≤
      pageAlign ((mb.type ty).max * sizeofRegion * 2) := by
    simp only [overruns, Bool.or_eq_true, decide_eq_true_eq, not_or] at written
    omega
  have pos : 0 < pageAlign ((mb.type ty).max * sizeofRegion * 2) := by
    have := (inv ty).max_pos
    simp only [sizeofRegion] at *
    omega
  exact ⟨pos, findNewArray_spec env slab mb ty area pos found⟩

theorem doubleArray_eq (env : Env) (depth : Nat) (mb : State) (ty : TypeId) (start size : Nat) :
    memblockDoubleArray env (depth + 1) mb ty start size =
      if mb.canResize = false then .ok (mb, -1)
      else if findNewArray env mb ty start size = 0 then .ok (mb, -1)
      else if env.slabIsAvailable = false ∧ overruns mb (findNewArray env mb ty start size)
          ((mb.type ty).max * sizeofRegion * 2) then .error .arrayOverlap
      else
        freeOldArray (memblockDoubleArray env depth)
            (mb.setType ty (grown (mb.type ty) (findNewArray env mb ty start size))) (mb.type ty)
          >>= fun freed => reserveNewArray env (memblockDoubleArray env depth) freed
              (findNewArray env mb ty start size) ((mb.type ty).max * 2)
          >>= fun reserved =>
            .ok (reserved.setType ty { reserved.type ty with inSlab := env.slabIsAvailable }, 0) :=
  rfl

/-- A successful doubling: the array has moved, and the two blocks have changed hands. -/
theorem doubleArray_faithful (env : Env) (depth : Nat) :
    Faithful env (memblockDoubleArray env depth) := by
  induction depth with
  | zero =>
      exact ⟨fun _ _ h => (by cases h), fun _ _ h => (by cases h), fun _ _ _ h => (by cases h)⟩
  | succ depth ih =>
      have main {mb ty start size mb' ret} (inv : Inv mb) (area : start + size ≤ physAddrMax)
          (h : memblockDoubleArray env (depth + 1) mb ty start size = .ok (mb', ret)) :
          Inv mb' ∧ Resized env mb mb' ∧ (env.slabIsAvailable = false → Occupied mb .reserved →
            Occupied mb' .reserved) := by
        rw [doubleArray_eq] at h
        split at h
        · cases h
          exact ⟨inv, .refl _, fun _ => id⟩
        split at h
        · cases h
          exact ⟨inv, .refl _, fun _ => id⟩
        rename_i found
        split at h
        · cases h
        rename_i written
        obtain ⟨freed, free, h⟩ := bind_eq_ok h
        obtain ⟨reserved, reserve, h⟩ := bind_eq_ok h
        cases h
        obtain ⟨inv1, inner, moved, released⟩ := freeOldArray_ok ih (inv_grown inv ty _) free
        obtain ⟨inv2, inner', moved', claimed⟩ := reserveNewArray_ok ih inv1 reserve
        refine ⟨inv_inSlab inv2 ty _, .double ty _ moved released moved' claimed, ?_⟩
        intro slab _
        obtain ⟨pos, gap, -⟩ := newArray_fits inv slab area found (by simpa [slab] using written)
        have bound := gap.1
        obtain ⟨a, some⟩ := claimed.occupied_claim slab pos (by omega)
        exact ⟨a, by rwa [map_inSlab]⟩
      exact ⟨fun inv area h => (main inv area h).1, fun inv area h => (main inv area h).2.1,
        fun slab inv area h => (main inv area h).2.2 slab⟩

end Miracle.Memblock
