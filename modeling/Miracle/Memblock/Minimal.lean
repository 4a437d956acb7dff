import Miracle.Memblock.Runs

/-! # Regions are not split without need

Most updates end with a merge or remove what they have cut off.  The exception is
`memblock_cap_memory_range`, which keeps both halves of a region without mapping that it
has cut.
-/

namespace Miracle.Memblock

open Extent

/-- No two neighbours touch and have equal flags. -/
def MemblockType.Minimal (t : MemblockType) : Prop :=
  ∀ i, i + 1 < t.cnt →
    ¬ ((t.rgn i).limit = (t.rgn (i + 1)).base ∧ (t.rgn i).tag = (t.rgn (i + 1)).tag)

/-- No region of either array is continued by another one with its flags. -/
def TightState (mb : State) : Prop := ∀ ty, Tight (mb.type ty).regions

theorem tight_orDummy {l : List Region} (tight : Tight l) : Tight (orDummy l) := by
  unfold orDummy
  split
  · intro e member
    obtain rfl := List.mem_singleton.mp member
    rw [lookup_cons, if_neg (not_contains_stop _)]
    simp
  · exact tight

theorem TightState.setType {mb : State} (tight : TightState mb) (ty : TypeId) {t : MemblockType}
    (h : Tight t.regions) : TightState (mb.setType ty t) := by
  intro ty'
  by_cases same : ty' = ty
  · subst same
    rwa [State.type_setType]
  · rw [State.type_setType_of_ne mb t same]
    exact tight ty'

/-- A change of the storage keeps the regions. -/
theorem TightState.restore {mb : State} (tight : TightState mb) (ty : TypeId) {t : MemblockType}
    (same : t.regions = (mb.type ty).regions) : TightState (mb.setType ty t) :=
  tight.setType ty (same ▸ tight ty)

theorem Contents.tight {t : MemblockType} {l : List Region} (h : Contents t l) (tight : Tight t.regions) :
    Tight l := by
  intro e member
  rw [← h.lookup_eq]
  refine tight e ?_
  rw [h.regions_eq, orDummy_of_ne (List.ne_nil_of_mem member)]
  exact member

/-! ## Cutting regions -/

theorem clip1_tag {lo hi : Nat} {e c : Region} (h : clip1 lo hi e = some c) : c.tag = e.tag := by
  unfold clip1 at h
  split at h
  · cases h
    rfl
  · cases h

theorem clip1_stop {lo hi : Nat} {e c : Region} (h : clip1 lo hi e = some c) :
    c.stop = min e.stop hi ∧ e.base < hi ∧ lo < e.stop := by
  unfold clip1 at h
  split at h
  · cases h
    simp only [stop] at *
    omega
  · cases h

theorem tight_outside {l : List Region} (sound : Sound l) (tight : Tight l) {base end_ : Nat}
    (lt : base < end_) : Tight (outside base end_ l) := by
  intro c member
  rw [lookup_outside sound lt.le]
  split
  · simp
  · rename_i out
    rcases List.mem_append.mp member with member | member
    · obtain ⟨e, he, part⟩ := mem_clip member
      obtain ⟨stop, -, -⟩ := clip1_stop part
      have whole : c.stop = e.stop := by omega
      rw [clip1_tag part, whole]
      exact tight e he
    · obtain ⟨e, he, part⟩ := mem_clip member
      obtain ⟨stop, -, -⟩ := clip1_stop part
      have := sound.bounded e he
      have whole : c.stop = e.stop := by omega
      rw [clip1_tag part, whole]
      exact tight e he

/-- Neither end of the range lies inside a region without mapping. -/
def Uncut (base end_ : Nat) (l : List Region) : Prop :=
  ∀ r ∈ l, memblockIsNomap r = true →
    ¬ (r.base < base ∧ base < r.stop) ∧ ¬ (r.base < end_ ∧ end_ < r.stop)

theorem tight_capped {l : List Region} (sound : Sound l) (tight : Tight l) {base end_ : Nat}
    (le : base ≤ end_) (uncut : Uncut base end_ l) : Tight (capped base end_ l) := by
  -- a region that ends where it did is not continued, with or without the filter
  have whole {c e : Region} (he : e ∈ l) (tag : c.tag = e.tag) (same : c.stop = e.stop) :
      lookup (capped base end_ l) c.stop ≠ some c.tag := by
    have keep := tight e he
    rw [lookup_capped sound le, tag, same]
    split
    · exact keep
    · intro found
      exact keep (Option.filter_eq_some_iff.mp found).1
  intro c member
  simp only [capped, List.mem_append, List.mem_filter] at member
  rcases member with ⟨member, nomap⟩ | member | ⟨member, nomap⟩
  · obtain ⟨e, he, part⟩ := mem_clip member
    have tag := clip1_tag part
    obtain ⟨stop, low, -⟩ := clip1_stop part
    have := (uncut e he (by rwa [memblockIsNomap, tag] at nomap)).1
    exact whole he tag (by omega)
  · obtain ⟨e, he, part⟩ := mem_clip member
    have tag := clip1_tag part
    obtain ⟨stop, low, -⟩ := clip1_stop part
    by_cases inner : e.stop ≤ end_
    · exact whole he tag (by omega)
    · -- the part above the range goes, or there is none to cut
      by_cases nomap : memblockIsNomap e = true
      · have := (uncut e he nomap).2
        omega
      · have ends : c.stop = end_ := by omega
        have above : lookup l end_ = some e.tag :=
          lookup_of_mem sound.ordered he (by simp only [Contains]; omega)
        rw [lookup_capped sound le, ends, if_neg (by omega), above]
        intro found
        have keep := (Option.filter_eq_some_iff.mp found).2
        rw [tag] at keep
        exact nomap keep
  · obtain ⟨e, he, part⟩ := mem_clip member
    obtain ⟨stop, -, -⟩ := clip1_stop part
    have := sound.bounded e he
    exact whole he (clip1_tag part) (by omega)

theorem tight_filter {l : List Region} (sound : Sound l) (tight : Tight l) :
    Tight (l.filter memblockIsNomap) := by
  intro e member
  have found := lookup_filter sound.ordered (fun flags : Flags => flags &&& Flags.nomap != 0) e.stop
  intro some
  rw [show lookup (l.filter memblockIsNomap) e.stop = _ from found] at some
  exact tight e (List.mem_of_mem_filter member) (Option.filter_eq_some_iff.mp some).1

theorem tight_addedTo {l : List Region} (sound : Sound l) (tight : Tight l) (base end_ : Nat)
    (flags : Flags) : Tight (addedTo base end_ flags l) := by
  unfold addedTo
  split
  · exact tight
  · exact tight_coalesce (sound.ordered.fill end_ flags base)

/-- The dummy entry in front of a new region. -/
theorem tight_coalesce_dummy {r : Region} (pos : 0 < r.size) : Tight (coalesce [Region.dummy, r]) := by
  intro e member
  rw [lookup_coalesce]
  refine tight_coalesceFrom (List.pairwise_cons.mpr ⟨?_, List.pairwise_singleton _ _⟩) ?_ e member
  · intro y _
    exact Nat.zero_le _
  · intro y hy
    obtain rfl := List.mem_singleton.mp hy
    exact pos

/-! ## Doublings and updates -/

/-- A doubling that returns splits nothing for good. -/
def Tidy (double : Doubling) : Prop :=
  ∀ {mb ty start size mb' ret}, Inv mb → TightState mb → start + size ≤ physAddrMax →
    double mb ty start size = .ok (mb', ret) → TightState mb'

section

variable {env : Env} {double : Doubling} (faithful : Faithful env double) (tidy : Tidy double)
  {ty : TypeId}

include faithful tidy

theorem growWhile_tight {need start size : Nat} (area : start + size ≤ physAddrMax) {fuel : Nat}
    {mb mb' : State} {room : Bool} (inv : Inv mb) (tight : TightState mb)
    (h : growWhile double ty need start size fuel mb = .ok (mb', room)) : TightState mb' := by
  induction fuel generalizing mb with
  | zero => cases h
  | succ fuel ih =>
      simp only [growWhile] at h
      split at h
      · obtain ⟨⟨mid, ret⟩, doubled, h⟩ := bind_eq_ok h
        have tight' := tidy inv tight area doubled
        simp only at h
        split at h
        · cases h
          exact tight'
        · exact ih (faithful.inv inv area doubled) tight' h
      · cases h
        exact tight

theorem addRangeWith_tight {mb mb' : State} {base size : Nat} {flags : Flags} {ret : Int} (inv : Inv mb)
    (tight : TightState mb) (h : addRangeWith double mb ty base size flags = .ok (mb', ret)) :
    TightState mb' := by
  obtain ⟨l, contents⟩ := (inv ty).contents
  rw [addRangeWith_eq contents] at h
  split at h
  · cases h
    exact tight
  rename_i zero
  have high := capped_end zero
  have lt : base < base + memblockCapSize base size := by omega
  simp only at h
  split at h
  · cases h
    exact tight.setType ty (tight_orDummy (tight_addedTo contents.sound (contents.tight (tight ty)) _ _ _))
  split at h
  · cases h
    exact tight
  obtain ⟨⟨mid, room⟩, grow, h⟩ := bind_eq_ok h
  have tight' := growWhile_tight faithful tidy high inv tight grow
  obtain ⟨inv', -, -, fits⟩ := growWhile_ok faithful high inv grow
  cases room with
  | false =>
      cases h
      exact tight'
  | true =>
      obtain ⟨l', contents'⟩ := (inv' ty).contents
      have fits := fits rfl
      obtain ⟨t, insert, h⟩ := bind_eq_ok h
      cases h
      refine tight'.setType ty ?_
      by_cases empty : l' = []
      · subst l'
        have pos : 1 ≤ (mid.type ty).cnt := (inv' ty).cnt_pos
        rw [contents'.addInsert_empty lt high flags (by omega)] at insert
        cases insert
        exact tight_coalesce_dummy (by simp only; omega)
      · by_cases room : (mid.type ty).cnt + pieces (base + memblockCapSize base size) l' base ≤
            (mid.type ty).max
        · rw [contents'.addInsert empty high flags room] at insert
          cases insert
          exact tight_orDummy (tight_addedTo contents'.sound (contents'.tight (tight' ty)) _ _ _)
        · rw [contents'.addInsert_full empty flags (inv' ty).cnt_le (by omega)] at insert
          cases insert

/-- An isolation: no range, no room, or a cut in a state without needless splits. -/
theorem isolateRangeWith_tight {mb mb' : State} {base size : Nat} {ret : Int} {startRgn endRgn : Nat}
    (inv : Inv mb) (tight : TightState mb)
    (h : isolateRangeWith double mb ty base size = .ok (mb', ret, startRgn, endRgn)) :
    ∃ mid, Resized env mb mid ∧ Inv mid ∧ TightState mid ∧
      ((ret = 0 ∧ memblockCapSize base size = 0 ∧ mb' = mid ∧ startRgn = 0 ∧ endRgn = 0) ∨
        (ret = 0 ∧ ∃ l, Isolated ty base size mid mb' startRgn endRgn l) ∨
        (ret = -enomem ∧ mb' = mid)) := by
  rw [isolateRangeWith_eq] at h
  split at h
  · cases h
    exact ⟨mb, .refl _, inv, tight, .inl ⟨rfl, ‹_›, rfl, rfl, rfl⟩⟩
  · rename_i nonempty
    obtain ⟨⟨mid, room⟩, grow, h⟩ := bind_eq_ok h
    obtain ⟨inv', moved, -, fits⟩ := growWhile_ok faithful (capped_end nonempty) inv grow
    have tight' := growWhile_tight faithful tidy (capped_end nonempty) inv tight grow
    refine ⟨mid, moved, inv', tight', .inr ?_⟩
    cases room with
    | false =>
        cases h
        exact .inr ⟨rfl, rfl⟩
    | true =>
        obtain ⟨iso, startRgn', endRgn', l, cut, done⟩ := isolateCut_ok nonempty (inv' ty) (fits rfl)
        cases done.symm.trans h
        exact .inl ⟨rfl, l, cut⟩

theorem removeRangeWith_tight {mb mb' : State} {base size : Nat} {ret : Int} (inv : Inv mb)
    (tight : TightState mb) (h : removeRangeWith double mb ty base size = .ok (mb', ret)) :
    TightState mb' := by
  obtain ⟨⟨iso, ret', startRgn, endRgn⟩, isolate, h⟩ := bind_eq_ok h
  obtain ⟨mid, -, inv', tight', outcome⟩ := isolateRangeWith_tight faithful tidy inv tight isolate
  rcases outcome with ⟨rfl, empty, rfl, rfl, rfl⟩ | ⟨rfl, l, cut⟩ | ⟨rfl, rfl⟩
  · simp [removeRegions] at h
    obtain ⟨rfl, rfl⟩ := h
    exact tight'
  · cases h
    have nonempty := cut.nonempty
    have lt : base < base + memblockCapSize base size := by omega
    simp only [cut.state, cut.first, cut.last, State.type_setType, State.setType_setType,
      removeRegions_isolated cut.contents lt.le]
    exact tight'.setType ty
      (tight_orDummy (tight_outside cut.contents.sound (cut.contents.tight (tight' ty)) lt))
  · cases h
    exact tight'

theorem freeOldArray_tight {mb mb' : State} {old : MemblockType} (inv : Inv mb) (tight : TightState mb)
    (h : freeOldArray double mb old = .ok mb') : TightState mb' := by
  rw [freeOldArray_eq] at h
  cases held : heldBlock old with
  | none =>
      rw [held] at h
      cases h
      exact tight
  | some block =>
      rw [held] at h
      obtain ⟨⟨freed, ret⟩, remove, h⟩ := bind_eq_ok h
      cases h
      exact removeRangeWith_tight faithful tidy inv tight remove

theorem reserveNewArray_tight {mb mb' : State} {addr max : Nat} (inv : Inv mb) (tight : TightState mb)
    (h : reserveNewArray env double mb addr max = .ok mb') : TightState mb' := by
  unfold reserveNewArray at h
  split at h
  · cases h
    exact tight
  · obtain ⟨⟨reserved, ret⟩, add, h⟩ := bind_eq_ok h
    simp only at h
    split at h
    · cases h
    · cases h
      exact addRangeWith_tight faithful tidy inv tight add

end

theorem doubleArray_tidy (env : Env) (depth : Nat) : Tidy (memblockDoubleArray env depth) := by
  induction depth with
  | zero =>
      intro mb ty start size mb' ret _ _ _ h
      cases h
  | succ depth ih =>
      intro mb ty start size mb' ret inv tight area h
      have faithful := doubleArray_faithful env depth
      rw [doubleArray_eq] at h
      split at h
      · cases h
        exact tight
      split at h
      · cases h
        exact tight
      split at h
      · cases h
      obtain ⟨freed, free, h⟩ := bind_eq_ok h
      obtain ⟨reserved, reserve, h⟩ := bind_eq_ok h
      cases h
      have grown := inv_grown inv ty (findNewArray env mb ty start size)
      have inv1 := (freeOldArray_ok faithful grown free).1
      have tight1 := freeOldArray_tight faithful ih grown (tight.restore ty rfl) free
      exact (reserveNewArray_tight faithful ih inv1 tight1 reserve).restore ty rfl

/-! ## The steps of a run -/

/-- What the steps keep. -/
structure Neat (mb : State) : Prop where
  inv : Inv mb
  tight : TightState mb
  large : ∀ ty, 2 ≤ (mb.type ty).max

/-- A reserved address that is not in the block of the reserved array. -/
structure Anchor (a : Nat) (mb : State) : Prop where
  inv : Inv mb
  large : 2 ≤ mb.reserved.max
  mapped : mb.map .reserved a ≠ none
  apart : ∀ block, heldBlock mb.reserved = some block → ¬ (block.1 ≤ a ∧ a < block.1 + block.2)

/-- With the slab in use, a doubling of `reserved` releases the block of the array only. -/
theorem Anchor.double {env : Env} (slab : env.slabIsAvailable = true) {depth a : Nat} {mb mb' : State}
    (h : Anchor a mb) {start size : Nat} {ret : Int}
    (done : memblockDoubleArray env depth mb .reserved start size = .ok (mb', ret)) : Anchor a mb' := by
  cases depth with
  | zero => cases done
  | succ depth =>
      rw [doubleArray_eq] at done
      split at done
      · cases done
        exact h
      split at done
      · cases done
        exact h
      split at done
      · cases done
      have cnt : mb.reserved.cnt ≤ mb.reserved.max := (h.inv .reserved).cnt_le
      have large := h.large
      have room : (mb.setType .reserved (grown mb.reserved
          (findNewArray env mb .reserved start size))).reserved.cnt + 2 ≤ mb.reserved.max * 2 := by
        show mb.reserved.cnt + 2 ≤ mb.reserved.max * 2
        omega
      obtain ⟨freed, free, edit, inv, -⟩ := freeOldArray_fits (memblockDoubleArray env depth)
        (inv_grown h.inv .reserved (findNewArray env mb .reserved start size)) room mb.reserved
      rw [show mb.type .reserved = mb.reserved from rfl] at done
      rw [show mb.type .reserved = mb.reserved from rfl] at free
      rw [free, ok_bind, reserveNewArray, if_pos slab, ok_bind] at done
      cases done
      have max : freed.reserved.max = mb.reserved.max * 2 := edit.max_eq .reserved
      refine ⟨inv_inSlab inv .reserved _, by rw [← max] at room; exact (by omega : 2 ≤ freed.reserved.max), ?_,
        fun block held => ?_⟩
      · rw [map_inSlab, edit.map_eq, map_grown]
        unfold releaseBlock
        cases held : heldBlock mb.reserved with
        | none => exact h.mapped
        | some block =>
            have out := h.apart block held
            have outside : ¬ InRange block.1 block.2 a := by
              simp only [InRange, memblockCapSize]
              omega
            simp only [withoutRange, if_neg outside]
            exact h.mapped
      · have none : heldBlock ({ freed.reserved with inSlab := env.slabIsAvailable } : MemblockType) = none :=
          heldBlock_slab slab
        exact absurd (none.symm.trans held) (by simp)

theorem Anchor.growWhile {env : Env} (slab : env.slabIsAvailable = true) {depth a : Nat} {mb mb' : State}
    (h : Anchor a mb) {need start size fuel : Nat} {room : Bool}
    (done : growWhile (memblockDoubleArray env depth) .reserved need start size fuel mb = .ok (mb', room)) :
    Anchor a mb' := by
  induction fuel generalizing mb with
  | zero => cases done
  | succ fuel ih =>
      simp only [Memblock.growWhile] at done
      split at done
      · obtain ⟨⟨mid, ret⟩, doubled, done⟩ := bind_eq_ok done
        have next := h.double slab doubled
        simp only at done
        split at done
        · cases done
          exact next
        · exact ih next done
      · cases done
        exact h

theorem Anchored.anchor {env : Env} {mb : State} (h : Anchored env mb) (slab : env.slabIsAvailable = true)
    (inv : Inv mb) (large : 2 ≤ mb.reserved.max) : ∃ a, Anchor a mb := by
  obtain ⟨a, mapped, apart⟩ := h
  exact ⟨a, inv, large, mapped, apart slab⟩

theorem Neat.large_after {env : Env} {mb mid mb' : State} (h : Neat mb) (moved : Resized env mb mid)
    (max : ∀ ty, (mb'.type ty).max = (mid.type ty).max) (ty : TypeId) : 2 ≤ (mb'.type ty).max := by
  have grows := (moved.grows (fun ty => (h.inv ty).max_pos)).1 ty
  rw [max ty]
  exact (h.large ty).trans grows

/-- Only a reservation with the slab in use can lose all other regions while it counts on them. -/
theorem Neat.addRange {env : Env} {mb mb' : State} (h : Neat mb) {ty : TypeId} {base size : Nat}
    {flags : Flags} {ret : Int}
    (anchored : ty = .reserved → env.slabIsAvailable = true →
      Grows mb .reserved (missing mb .reserved base size) → Anchored env mb)
    (done : memblockAddRange env mb ty base size flags = .ok (mb', ret)) : Neat mb' := by
  have faithful := doubleArray_faithful env nesting
  have tight := addRangeWith_tight faithful (doubleArray_tidy env nesting) h.inv h.tight done
  obtain ⟨mid, moved, inv, occupied, outcome⟩ := addRangeWith_ok faithful h.inv done
  rcases outcome with ⟨-, edit, inv' | ⟨before, after, l, contents, grow⟩⟩ | ⟨-, rfl⟩
  · exact ⟨inv', tight, h.large_after moved edit.max_eq⟩
  · exfalso
    cases ty with
    | memory =>
        obtain ⟨a, some⟩ := before
        exact after ⟨a, by rwa [moved.map_memory]⟩
    | reserved =>
        cases slab : env.slabIsAvailable with
        | false => exact after (occupied slab before)
        | true =>
            rw [← missing_eq contents] at grow
            by_cases fits : (mb.type .reserved).cnt + missing mb .reserved base size ≤
                (mb.type .reserved).max
            · rw [growRounds, growWhile_fits fits] at grow
              cases grow
              exact after before
            by_cases fixed : mb.canResize = true
            · obtain ⟨a, anchor⟩ := (anchored rfl slab ⟨fixed, Nat.not_le.mp fits⟩).anchor slab h.inv
                (h.large .reserved)
              exact after ⟨a, Option.isSome_iff_ne_none.mpr (anchor.growWhile slab grow).mapped⟩
            · rw [nesting, growWhile_fixed env 1 fixed fits] at grow
              cases grow
  · exact ⟨inv, tight, h.large_after moved (fun _ => rfl)⟩

theorem Neat.removeRange {env : Env} {mb mb' : State} (h : Neat mb) {ty : TypeId} {base size : Nat}
    {ret : Int} (done : memblockRemoveRange env mb ty base size = .ok (mb', ret)) : Neat mb' := by
  have faithful := doubleArray_faithful env nesting
  have tight := removeRangeWith_tight faithful (doubleArray_tidy env nesting) h.inv h.tight done
  obtain ⟨mid, moved, -, inv, outcome⟩ := removeRangeWith_ok faithful h.inv done
  rcases outcome with ⟨-, edit⟩ | ⟨-, rfl⟩
  · exact ⟨inv, tight, h.large_after moved edit.max_eq⟩
  · exact ⟨inv, tight, h.large_after moved (fun _ => rfl)⟩

theorem Contents.tight_merged {t t' : MemblockType} {l : List Region} (h : Contents t l)
    (done : memblockMergeRegions t = .ok t') : Tight t'.regions := by
  rw [h.merge] at done
  cases done
  exact tight_orDummy (tight_coalesce h.sound.ordered)

theorem Neat.setclrFlag {env : Env} {mb mb' : State} (h : Neat mb) {base size : Nat} {set : Bool}
    {flag : Flags} {ret : Int} (done : memblockSetclrFlag env mb base size set flag = .ok (mb', ret)) :
    Neat mb' := by
  obtain ⟨mid, moved, inv, outcome⟩ := memblockSetclrFlag_ok h.inv done
  have large : ∀ ty, 2 ≤ (mb'.type ty).max := by
    rcases outcome with ⟨-, edit⟩ | ⟨-, rfl⟩
    · exact h.large_after moved edit.max_eq
    · exact h.large_after moved (fun _ => rfl)
  refine ⟨inv, ?_, large⟩
  obtain ⟨⟨iso, ret', startRgn, endRgn⟩, isolate, done⟩ := bind_eq_ok done
  obtain ⟨mid, -, inv', tight', outcome⟩ := isolateRangeWith_tight (doubleArray_faithful env nesting)
    (doubleArray_tidy env nesting) h.inv h.tight isolate
  rcases outcome with ⟨rfl, empty, rfl, rfl, rfl⟩ | ⟨rfl, l, cut⟩ | ⟨rfl, rfl⟩
  · obtain ⟨t, merge, done⟩ := bind_eq_ok done
    cases done
    obtain ⟨l, contents⟩ := (inv' .memory).contents
    exact tight'.setType .memory (contents.tight_merged merge)
  · obtain ⟨t, merge, done⟩ := bind_eq_ok done
    cases done
    have le : base ≤ base + memblockCapSize base size := by omega
    rw [cut.memory, cut.first, cut.last, setclrRegions_isolated] at merge
    have merged := (cut.contents.reflagged set flag le).tight_merged merge
    rw [cut.setMemory]
    exact tight'.setType .memory merged
  · cases done
    exact tight'

/-- The addresses on both sides of the cut have the same flags, and they say nomap. -/
def CutsNomap (m : AddrMap) (x : Nat) : Prop :=
  ∃ flags, 0 < x ∧ m (x - 1) = some flags ∧ m x = some flags ∧ flags &&& Flags.nomap ≠ 0

/-- No boundary of the capped range cuts memory without mapping. -/
def CapOk (mb : State) (base size : Nat) : Prop :=
  memblockCapSize base size ≠ 0 → ¬ CutsNomap (mb.map .memory) base ∧
    ¬ CutsNomap (mb.map .memory) (base + memblockCapSize base size)

theorem uncut_of_map {l : List Region} (sound : Sound l) {base end_ : Nat}
    (first : ¬ CutsNomap (lookup l) base) (last : ¬ CutsNomap (lookup l) end_) : Uncut base end_ l := by
  have cuts {r : Region} (hr : r ∈ l) (nomap : memblockIsNomap r = true) {x : Nat}
      (inside : r.base < x ∧ x < r.stop) : CutsNomap (lookup l) x := by
    refine ⟨r.tag, by omega, lookup_of_mem sound.ordered hr ⟨by omega, by omega⟩,
      lookup_of_mem sound.ordered hr ⟨by omega, by omega⟩, ?_⟩
    simpa [memblockIsNomap] using nomap
  exact fun r hr nomap => ⟨fun inside => first (cuts hr nomap inside),
    fun inside => last (cuts hr nomap inside)⟩

theorem Neat.capMemoryRange {env : Env} {mb mb' : State} (h : Neat mb) {base size : Nat}
    (ok : size ≠ 0 → CapOk mb base size) (done : memblockCapMemoryRange env mb base size = .ok mb') :
    Neat mb' := by
  unfold memblockCapMemoryRange at done
  split at done
  · cases done
    exact h
  rename_i some
  obtain ⟨⟨iso, ret, startRgn, endRgn⟩, isolate, done⟩ := bind_eq_ok done
  obtain ⟨mid, moved, inv, tight, outcome⟩ := isolateRangeWith_tight (doubleArray_faithful env nesting)
    (doubleArray_tidy env nesting) h.inv h.tight isolate
  have neat : Neat mid := ⟨inv, tight, h.large_after moved (fun _ => rfl)⟩
  -- the removals from `reserved` that follow
  have finish {capped : State} (neat : Neat capped)
      (done : (memblockRemoveRange env capped .reserved 0 base >>= fun r =>
        memblockRemoveRange env r.1 .reserved (u64 (base + size)) physAddrMax >>= fun r => .ok r.1) =
          .ok mb') : Neat mb' := by
    obtain ⟨⟨low, _⟩, first, done⟩ := bind_eq_ok done
    obtain ⟨⟨high, _⟩, second, done⟩ := bind_eq_ok done
    cases done
    exact (neat.removeRange first).removeRange second
  rcases outcome with ⟨rfl, empty, rfl, rfl, rfl⟩ | ⟨rfl, l, cut⟩ | ⟨rfl, rfl⟩
  · obtain ⟨edit, inv'⟩ := removeMapped_memory inv
    obtain ⟨l, contents⟩ := (inv .memory).contents
    have all : removeMapped iso.memory 0 iso.memory.cnt = _ := removeMapped_all contents
    refine finish ⟨inv', ?_, fun ty => (edit.max_eq ty).symm ▸ neat.large ty⟩ done
    rw [all]
    exact tight.setType .memory (tight_orDummy (tight_filter contents.sound (contents.tight (tight .memory))))
  · obtain ⟨edit, inv'⟩ := cut.capped inv
    have le : base ≤ base + memblockCapSize base size := by omega
    have map : lookup l = mb.map .memory := by
      rw [← moved.map_memory]
      exact (funext cut.contents.lookup_eq).symm
    obtain ⟨first, last⟩ := ok some cut.nonempty
    rw [← map] at first last
    refine finish ⟨inv', ?_, fun ty => (edit.max_eq ty).symm ▸ neat.large ty⟩ done
    rw [cut.first, cut.last, removeMapped_isolated cut.contents le (cut.memory), cut.setMemory]
    exact tight.setType .memory (tight_orDummy (tight_capped cut.contents.sound
      (cut.contents.tight (tight .memory)) le (uncut_of_map cut.contents.sound first last)))
  · cases done
    exact neat

/-- When an operation leaves no needless split. -/
def NeatOk (env : Env) (mb : State) : Op → Prop
  | .reserve base size =>
      env.slabIsAvailable = true →
        Grows mb .reserved (missing mb .reserved base.toNat size.toNat) → Anchored env mb
  | .capMemoryRange base size => size.toNat ≠ 0 → CapOk mb base.toNat size.toNat
  | .memLimitRemoveMap limit =>
      limit.toNat ≠ 0 → findMaxAddr mb limit.toNat ≠ physAddrMax →
        CapOk mb 0 (findMaxAddr mb limit.toNat)
  | _ => True

theorem Neat.settings {mb mb' : State} (h : Neat mb) (memory : mb'.memory = mb.memory)
    (reserved : mb'.reserved = mb.reserved) : Neat mb' := by
  have same (ty : TypeId) : mb'.type ty = mb.type ty := by cases ty <;> assumption
  exact ⟨fun ty => same ty ▸ h.inv ty, fun ty => same ty ▸ h.tight ty, fun ty => same ty ▸ h.large ty⟩

theorem discard_eq_ok {r : Except Bug (State × Int)} {mb : State} (h : discard r = .ok mb) :
    ∃ ret, r = .ok (mb, ret) := by
  cases r with
  | error bug => cases h
  | ok p =>
      cases h
      exact ⟨p.2, rfl⟩

theorem Neat.step {env : Env} {mb mb' : State} (h : Neat mb) {op : Op} (ok : NeatOk env mb op)
    (done : step env mb op = .ok mb') : Neat mb' := by
  cases op with
  | add base size =>
      obtain ⟨ret, done⟩ := discard_eq_ok done
      exact h.addRange (by simp) done
  | reserve base size =>
      obtain ⟨ret, done⟩ := discard_eq_ok done
      exact h.addRange (fun _ => ok) done
  | remove base size =>
      obtain ⟨ret, done⟩ := discard_eq_ok done
      exact h.removeRange done
  | free base size =>
      obtain ⟨ret, done⟩ := discard_eq_ok done
      exact h.removeRange done
  | mark attr base size =>
      cases attr <;> obtain ⟨ret, done⟩ := discard_eq_ok done <;> exact h.setclrFlag done
  | clear attr base size =>
      cases attr <;> obtain ⟨ret, done⟩ := discard_eq_ok done <;> exact h.setclrFlag done
  | capMemoryRange base size => exact h.capMemoryRange ok done
  | enforceMemoryLimit limit =>
      simp only [Memblock.step, memblockEnforceMemoryLimit] at done
      split at done
      · cases done
        exact h
      · split at done
        · cases done
          exact h
        · obtain ⟨⟨mid, _⟩, first, done⟩ := bind_eq_ok done
          obtain ⟨⟨last, _⟩, second, done⟩ := bind_eq_ok done
          cases done
          exact (h.removeRange first).removeRange second
  | memLimitRemoveMap limit =>
      simp only [Memblock.step, memblockMemLimitRemoveMap] at done
      split at done
      · cases done
        exact h
      · split at done
        · cases done
          exact h
        · exact h.capMemoryRange (fun _ => ok ‹_› ‹_›) done
  | allowResize | setCurrentLimit limit | setBottomUp enable =>
      cases done
      exact h.settings rfl rfl

end Miracle.Memblock
