import Miracle.Memblock.RegionQuery
import Miracle.Memblock.Attributes

/-! # Marking a range and clearing the mark

Marking can split regions that clearing joins again.  Clearing isolates the range too and
asks for two free entries once more, which the split may have taken.
-/

namespace Miracle.Memblock

open Extent

/-! ## The array after a mark -/

theorem clip_orDummy (lo hi : Nat) (l : List Region) : clip lo hi (orDummy l) = clip lo hi l := by
  unfold orDummy
  split
  · rename_i empty
    rw [empty]
    exact clip_of_outside fun r member => by
      obtain rfl := List.mem_singleton.mp member
      exact .inl (Nat.zero_le _)
  · rfl

/-- The state with the range marked, its neighbours merged with it where their flags agree. -/
def State.marked (mb : State) (base size : Nat) : State :=
  let regions := reflagged true Flags.nomap base (base + memblockCapSize base size) mb.memory.regions
  { mb with memory := { mb.memory with regions := orDummy (coalesce regions) } }

/-- `while (cnt + 2 > max) memblock_double_array(..)` ends with room in the memory array. -/
def MakesRoom (env : Env) (mb : State) (base size : Nat) (mid : State) : Prop :=
  growWhile (memblockDoubleArray env nesting) .memory 2 base (memblockCapSize base size) growRounds mb = .ok (mid, true)

section

variable {env : Env} {mb mb' : State} {base size : Nat}

theorem MakesRoom.spec {mid : State} (h : MakesRoom env mb base size mid) (inv : Inv mb)
    (nonempty : memblockCapSize base size ≠ 0) :
    Inv mid ∧ mid.memory.cnt + 2 ≤ mid.memory.max ∧ mid.map .memory = mb.map .memory := by
  obtain ⟨inv', moved, -, room⟩ := growWhile_ok (doubleArray_faithful env nesting) (capped_end nonempty) inv h
  exact ⟨inv', room rfl, moved.map_memory⟩

/-- What an isolation with room, the change of the flags and the merge make of the state. -/
theorem setclr_made (set : Bool) (flag : Flags) {mid : State} (inv : Inv mid) (nonempty : memblockCapSize base size ≠ 0)
    (room : mid.memory.cnt + 2 ≤ mid.memory.max) :
    ∃ iso startRgn endRgn, isolateCut mid .memory base (base + memblockCapSize base size) =
        .ok (iso, 0, startRgn, endRgn) ∧
      memblockMergeRegions (setclrRegions set flag iso.memory startRgn (endRgn - startRgn)) =
        .ok { mid.memory with regions := orDummy (coalesce
          (reflagged set flag base (base + memblockCapSize base size) mid.memory.regions)) } ∧
      ∀ t, { iso with memory := t } = { mid with memory := t } := by
  obtain ⟨iso, startRgn, endRgn, l, cut, done⟩ := @isolateCut_ok mid .memory base size nonempty (inv .memory) room
  refine ⟨iso, startRgn, endRgn, done, ?_, fun t => by rw [cut.state]; rfl⟩
  have le : base ≤ base + memblockCapSize base size := by omega
  have regions : mid.memory.regions = orDummy l := cut.contents.regions_eq
  have same : reflagged set flag base (base + memblockCapSize base size) mid.memory.regions =
      reflagged set flag base (base + memblockCapSize base size) l := by
    simp only [reflagged, regions, clip_orDummy]
  rw [cut.memory, cut.first, cut.last, setclrRegions_isolated, same]
  exact (cut.contents.reflagged set flag le).merge

theorem setclrFlag_eq (set : Bool) (flag : Flags) (nonempty : memblockCapSize base size ≠ 0) (inv : Inv mb) :
    memblockSetclrFlag env mb base size set flag =
      growWhile (memblockDoubleArray env nesting) .memory 2 base (memblockCapSize base size) growRounds mb >>=
        fun (mid, room) =>
          if room then .ok ({ mid with memory := { mid.memory with regions := orDummy (coalesce
            (reflagged set flag base (base + memblockCapSize base size) mid.memory.regions)) } }, 0)
          else .ok (mid, -enomem) := by
  unfold memblockSetclrFlag memblockIsolateRange
  rw [isolateRangeWith_eq, if_neg nonempty]
  cases grow : growWhile (memblockDoubleArray env nesting) .memory 2 base (memblockCapSize base size) growRounds mb with
  | error bug => rfl
  | ok result =>
      obtain ⟨mid, room⟩ := result
      cases room with
      | false => rfl
      | true =>
          obtain ⟨inv', enough, -⟩ := MakesRoom.spec grow inv nonempty
          obtain ⟨iso, startRgn, endRgn, cut, merge, keep⟩ := setclr_made set flag inv' nonempty enough
          simp only [ok_bind, if_true, cut, ne_eq, not_true_eq_false, if_false, merge, keep, pure_eq_ok]

/-- Marking and clearing return zero exactly where there is room. -/
theorem markNomap_iff (nonempty : memblockCapSize base size ≠ 0) (inv : Inv mb) :
    memblockMarkNomap env mb base size = .ok (mb', 0) ↔
      ∃ mid, MakesRoom env mb base size mid ∧ mb' = mid.marked base size := by
  rw [memblockMarkNomap, setclrFlag_eq true Flags.nomap nonempty inv]
  constructor
  · intro done
    obtain ⟨⟨mid, room⟩, grow, rest⟩ := bind_eq_ok done
    cases room with
    | false => exact absurd (Prod.mk.inj (Except.ok.inj rest)).2 (by decide)
    | true =>
        obtain ⟨rfl, -⟩ := Prod.mk.inj (Except.ok.inj rest)
        exact ⟨mid, grow, rfl⟩
  · rintro ⟨mid, grow, rfl⟩
    rw [show growWhile _ _ _ _ _ _ mb = _ from grow]
    rfl

theorem clearNomap_iff (nonempty : memblockCapSize base size ≠ 0) (inv : Inv mb) :
    (∃ mb', memblockClearNomap env mb base size = .ok (mb', 0)) ↔ ∃ mid, MakesRoom env mb base size mid := by
  rw [memblockClearNomap, setclrFlag_eq false Flags.nomap nonempty inv]
  constructor
  · rintro ⟨mb', done⟩
    obtain ⟨⟨mid, room⟩, grow, rest⟩ := bind_eq_ok done
    cases room with
    | false => exact absurd (Prod.mk.inj (Except.ok.inj rest)).2 (by decide)
    | true => exact ⟨mid, grow⟩
  · rintro ⟨mid, grow⟩
    rw [show growWhile _ _ _ _ _ _ mb = _ from grow]
    exact ⟨_, rfl⟩

theorem Inv.marked (inv : Inv mb) (nonempty : memblockCapSize base size ≠ 0) (room : mb.memory.cnt + 2 ≤ mb.memory.max) :
    Inv (mb.marked base size) ∧ (mb.marked base size).map .memory = reflagRange true Flags.nomap base size (mb.map .memory) := by
  have fits : (mb.type .memory).cnt + 2 ≤ (mb.type .memory).max := room
  have done : memblockMarkNomap Env.early mb base size = .ok (mb.marked base size, 0) :=
    (markNomap_iff nonempty inv).mpr ⟨mb, growWhile_fits fits _ _ 63, rfl⟩
  -- with room nothing is moved
  obtain ⟨iso, startRgn, endRgn, l, cut, isolate⟩ := isolateCut_ok nonempty (inv .memory) fits
  obtain ⟨t, merge, edit, inv'⟩ := cut.reflagged inv true Flags.nomap
  obtain ⟨iso', start', end', isolate', merge', keep⟩ := setclr_made true Flags.nomap inv nonempty room
  obtain ⟨rfl, -, rfl, rfl⟩ : iso' = iso ∧ (0 : Int) = 0 ∧ start' = startRgn ∧ end' = endRgn := by
    simpa using Except.ok.inj (isolate'.symm.trans isolate)
  obtain rfl := Except.ok.inj (merge'.symm.trans merge)
  rw [keep] at edit inv'
  exact ⟨inv', edit.map_eq⟩

end

/-! ## Minimal arrays -/

theorem TypeInv.tight {t : MemblockType} (inv : TypeInv t) (minimal : t.Minimal) : Tight t.regions := by
  intro e member continued
  obtain ⟨i, lt, rfl⟩ := exists_rgn member
  obtain ⟨f, member', inside, tag⟩ := lookup_eq_some continued
  obtain ⟨j, lt', rfl⟩ := exists_rgn member'
  have low := inside.1
  have high := inside.2
  have later : i < j := by
    by_contra before
    rcases Nat.lt_or_eq_of_le (Nat.not_lt.mp before) with earlier | rfl
    · have sorted := rgn_sorted inv earlier lt
      simp only [stop] at *
      omega
    · omega
  have pos {k : Nat} (lt : k < t.cnt) (more : 1 < t.cnt) : 0 < (t.rgn k).size := by
    rcases inv.sized with sized | dummy
    · exact sized _ (rgn_mem lt)
    · have one : t.cnt = 1 := by rw [MemblockType.cnt, dummy]; rfl
      omega
  have next : (t.rgn i).stop ≤ (t.rgn (i + 1)).base := rgn_sorted inv (Nat.lt_succ_self i) (by omega)
  -- the region that continues the other is its neighbour
  have neighbour : j = i + 1 := by
    by_contra apart
    have sorted := rgn_sorted inv (by omega : i + 1 < j) lt'
    have size := pos (by omega : i + 1 < t.cnt) (by omega)
    simp only [stop] at *
    omega
  subst neighbour
  refine minimal i lt' ⟨?_, tag.symm⟩
  rw [rgn_limit inv lt]
  exact le_antisymm next low

/-- Arrays with one map and no two regions to join have the same regions. -/
theorem regions_unique {t t' : MemblockType} (inv : TypeInv t) (inv' : TypeInv t') (tight : Tight t.regions)
    (tight' : Tight t'.regions) (same : ∀ a, lookup t.regions a = lookup t'.regions a) : t.regions = t'.regions := by
  obtain ⟨l, contents⟩ := inv.contents
  obtain ⟨l', contents'⟩ := inv'.contents
  have lists : l = l' := Tight.unique contents.sound.ordered contents'.sound.ordered (contents.tight tight)
    (contents'.tight tight') fun a => by rw [← contents.lookup_eq, ← contents'.lookup_eq, same]
  rw [contents.regions_eq, contents'.regions_eq, lists]

/-- A change of flags that returns zero leaves an array with nothing to join. -/
theorem setclrFlag_tight {env : Env} {mb mb' : State} {base size : Nat} {set : Bool} {flag : Flags} (inv : Inv mb)
    (done : memblockSetclrFlag env mb base size set flag = .ok (mb', 0)) : Tight mb'.memory.regions := by
  obtain ⟨⟨iso, ret', startRgn, endRgn⟩, isolate, done⟩ := bind_eq_ok done
  obtain ⟨mid, -, inv', outcome⟩ := isolateRangeWith_ok (doubleArray_faithful env nesting) inv isolate
  rcases outcome with ⟨rfl, empty, rfl, rfl, rfl⟩ | ⟨rfl, l, cut⟩ | ⟨rfl, rfl⟩
  · obtain ⟨t, merge, done⟩ := bind_eq_ok done
    cases done
    obtain ⟨l, contents⟩ := (inv' .memory).contents
    exact contents.tight_merged merge
  · obtain ⟨t, merge, done⟩ := bind_eq_ok done
    cases done
    have le : base ≤ base + memblockCapSize base size := by omega
    rw [cut.memory, cut.first, cut.last, setclrRegions_isolated] at merge
    exact (cut.contents.reflagged set flag le).tight_merged merge
  · exact absurd (Prod.mk.inj (Except.ok.inj done)).2 (by decide)

/-! ## Undoing the mark -/

theorem or_and_not {x y : Flags} (apart : x &&& y = 0) : (x ||| y) &&& ~~~y = x := by
  ext i lt
  have bit : (x[i] && y[i]) = false := by
    rw [← BitVec.getElem_and, apart]
    exact BitVec.getElem_zero lt
  rw [BitVec.getElem_and, BitVec.getElem_or, BitVec.getElem_not]
  cases inX : x[i] <;> cases inY : y[i] <;> simp_all

theorem newFlags_undone {flags : Flags} (unmarked : flags &&& Flags.nomap = 0) :
    newFlags false Flags.nomap (newFlags true Flags.nomap flags) = flags := or_and_not unmarked

theorem reflag_undone {base size : Nat} {m : AddrMap}
    (unmarked : ∀ a flags, InRange base size a → m a = some flags → flags &&& Flags.nomap = 0) :
    reflagRange false Flags.nomap base size (reflagRange true Flags.nomap base size m) = m := by
  funext a
  unfold reflagRange
  split
  · rename_i inside
    cases found : m a with
    | none => rfl
    | some flags =>
        simp only [Option.map_some, newFlags_undone (unmarked a flags inside found)]
  · rfl

/-- When the mark can be cleared: while doubling is forbidden the marked array must leave two
    entries free, unless there was no room to mark; else room must be found a second time. -/
def UndoOk (env : Env) (mb : State) (base size : Nat) : Prop :=
  memblockCapSize base size = 0 ∨
    if mb.canResize then
      ∀ mid, MakesRoom env mb base size mid → ∃ last, MakesRoom env (mid.marked base size) base size last
    else mb.memory.max < mb.memory.cnt + 2 ∨ (mb.marked base size).memory.cnt + 2 ≤ mb.memory.max

theorem makesRoom_fixed (env : Env) {mb mid : State} (fixed : ¬ mb.canResize = true) {base size : Nat} :
    MakesRoom env mb base size mid ↔ mb.memory.cnt + 2 ≤ mb.memory.max ∧ mid = mb := by
  by_cases fits : (mb.type .memory).cnt + 2 ≤ (mb.type .memory).max
  · rw [MakesRoom, growRounds, growWhile_fits fits]
    constructor
    · intro same
      exact ⟨fits, (Prod.mk.inj (Except.ok.inj same)).1.symm⟩
    · rintro ⟨-, rfl⟩
      rfl
  · rw [MakesRoom, nesting, growWhile_fixed env 1 fixed fits]
    constructor
    · intro same
      exact absurd (Prod.mk.inj (Except.ok.inj same)).2 (by decide)
    · exact fun h => absurd h.1 fits

/-- Room can be found a second time, whatever doubling may do. -/
theorem undoOk_iff (env : Env) {mb : State} {base size : Nat} (nonempty : memblockCapSize base size ≠ 0) :
    UndoOk env mb base size ↔
      ∀ mid, MakesRoom env mb base size mid → ∃ last, MakesRoom env (mid.marked base size) base size last := by
  unfold UndoOk
  rw [or_iff_right nonempty]
  by_cases resize : mb.canResize = true
  · rw [if_pos resize]
  · rw [if_neg resize]
    constructor
    · rintro enough mid room
      obtain ⟨fits, rfl⟩ := (makesRoom_fixed env resize).mp room
      exact ⟨_, (@makesRoom_fixed env (mid.marked base size) _ resize base size).mpr
        ⟨enough.resolve_left (Nat.not_lt.mpr fits), rfl⟩⟩
    · intro again
      by_cases fits : mb.memory.cnt + 2 ≤ mb.memory.max
      · obtain ⟨last, room⟩ := again mb ((makesRoom_fixed env resize).mpr ⟨fits, rfl⟩)
        exact .inr ((@makesRoom_fixed env (mb.marked base size) last resize base size).mp room).1
      · exact .inl (Nat.not_le.mp fits)

/-- The mark is undone: what a mark did, clearing takes back. -/
def Undone (env : Env) (mb : State) (base size : Nat) : Prop :=
  ∀ mid, memblockMarkNomap env mb base size = .ok (mid, 0) →
    ∃ mb', memblockClearNomap env mid base size = .ok (mb', 0) ∧ mb'.memory.regions = mb.memory.regions

section

variable {env : Env} {mb : State} {base size : Nat} (inv : Inv mb) (minimal : mb.memory.Minimal)
  (unmarked : ∀ a flags, InRange base size a → mb.map .memory a = some flags → flags &&& Flags.nomap = 0)

include inv minimal unmarked

/-- When both calls return zero the array is as it was. -/
theorem cleared_regions {mid mb' : State} (mark : memblockMarkNomap env mb base size = .ok (mid, 0))
    (clear : memblockClearNomap env mid base size = .ok (mb', 0)) : mb'.memory.regions = mb.memory.regions := by
  have zero : (0 : Int) ≠ -enomem := by decide
  obtain ⟨grown, moved, inv1, outcome⟩ := memblockSetclrFlag_ok inv mark
  obtain ⟨-, edit⟩ := outcome.resolve_right fun h => zero h.1
  obtain ⟨grown', moved', inv2, outcome'⟩ := memblockSetclrFlag_ok inv1 clear
  obtain ⟨-, edit'⟩ := outcome'.resolve_right fun h => zero h.1
  have map : mb'.map .memory = mb.map .memory := by
    rw [edit'.map_eq, moved'.map_memory, edit.map_eq, moved.map_memory]
    exact reflag_undone unmarked
  exact regions_unique (inv2 .memory) (inv .memory) (setclrFlag_tight inv1 clear) ((inv .memory).tight minimal)
    fun a => congrFun map a

/-- An empty range: both calls only merge. -/
theorem undone_empty (empty : memblockCapSize base size = 0) : Undone env mb base size := by
  intro mid mark
  have clears {state : State} (h : Inv state) : ∃ mb', memblockClearNomap env state base size = .ok (mb', 0) := by
    obtain ⟨l, contents⟩ := (h .memory).contents
    unfold memblockClearNomap memblockSetclrFlag memblockIsolateRange
    rw [isolateRangeWith_eq, if_pos empty]
    simp only [ok_bind, ne_eq, not_true_eq_false, if_false, Nat.sub_self, setclrRegions]
    rw [show memblockMergeRegions state.memory = _ from contents.merge]
    exact ⟨_, rfl⟩
  obtain ⟨grown, moved, inv1, -⟩ := memblockSetclrFlag_ok inv mark
  obtain ⟨mb', clear⟩ := clears inv1
  exact ⟨mb', clear, cleared_regions inv minimal unmarked mark clear⟩

end

/-- 126 regions of three pages each. -/
def State.nearlyFull : State :=
  { State.init with
    memory := { MemblockType.init with
      regions := (List.range 126).map fun i => ⟨0x10000 + 0x4000 * i, 0x3000, Flags.none⟩
      totalSize := 0x3000 * 126 } }

theorem State.nearlyFull_inv : Inv State.nearlyFull := by
  intro ty
  cases ty with
  | memory =>
      refine ⟨by decide +kernel, by decide +kernel, ?_, .inl ?_, ?_, by decide +kernel⟩
      · refine List.pairwise_map.mpr (List.pairwise_lt_range.imp ?_)
        intro i j lt
        simp only [stop]
        omega
      · intro r member
        obtain ⟨i, -, rfl⟩ := List.mem_map.mp member
        exact (by decide : 0 < 0x3000)
      · intro r member
        obtain ⟨i, below, rfl⟩ := List.mem_map.mp member
        have lt := List.mem_range.mp below
        simp only [stop, physAddrMax]
        omega
  | reserved => exact State.fourPages_inv .reserved

end Miracle.Memblock
