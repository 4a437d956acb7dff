import Miracle.Idr.Runs

/-! # Ids stay in the range asked for

The bounds of `idr_alloc` and `idr_alloc_cyclic` are an `int` each, and the base and the cursor a
`u32`.  The base is taken off the upper bound without a test, so that a range that ends below the
base is taken for one without an end.
-/

namespace Miracle.Idr

open RadixTree

def idrSetCursor (idr : State) (val : BitVec 32) : State := { idr with next := val }

/-- The states reached by calls of all functions, in any order.  The bound of an allocation is not below the base, and no
    pointer is the reserved entry of the tree. -/
inductive Reached : State → Prop where
  | init (base : BitVec 32) : Reached (idrInitBase base)
  | setCursor {idr : State} (run : Reached idr) (val : BitVec 32) : Reached (idrSetCursor idr val)
  | allocU32 {idr : State} {ptr : Pointer} {max : BitVec 32} (run : Reached idr) (valid : ptr ≠ radixTreeRetry)
      (above : idr.base ≤ max) (mem : Memory) (nextid : BitVec 32) : Reached (idrAllocU32 mem idr ptr nextid (max.setWidth 64)).1
  | alloc {idr : State} {ptr : Pointer} {end_ : BitVec 32} (run : Reached idr) (valid : ptr ≠ radixTreeRetry)
      (above : idr.base.toNat ≤ (lastId end_).toNat) (mem : Memory) (start : BitVec 32) :
      Reached (idrAlloc mem idr ptr start end_).1
  | allocCyclic {idr : State} {ptr : Pointer} {end_ : BitVec 32} (run : Reached idr) (valid : ptr ≠ radixTreeRetry)
      (above : idr.base.toNat ≤ (lastId end_).toNat) (mem mem' : Memory) (start : BitVec 32) :
      Reached (idrAllocCyclic mem mem' idr ptr start end_).1
  | replace {idr idr' : State} {ptr : Pointer} {id : BitVec 64} {result : Except Int Pointer} (run : Reached idr)
      (valid : ptr ≠ radixTreeRetry) (done : idrReplace idr ptr id = some (idr', result)) : Reached idr'
  | remove {idr idr' : State} {id : BitVec 64} {old : Pointer} (run : Reached idr)
      (done : idrRemove idr id = some (idr', old)) : Reached idr'

variable {idr : State}

theorem Reached.invariant (run : Reached idr) : Invariant (· ≠ radixTreeRetry) idr := by
  induction run with
  | init base => exact (Reachable.init base).invariant
  | setCursor _ val inv => exact ⟨inv.ok, inv.allowed⟩
  | allocU32 _ valid above mem nextid inv => exact inv.stored valid (idrAllocU32_word inv.ok mem _ nextid above).stored
  | alloc _ valid above mem start inv => exact inv.stored valid (idrAlloc_stored inv.ok mem _ start above)
  | allocCyclic _ valid above mem mem' start inv => exact inv.stored valid (idrAllocCyclic_stored inv.ok mem mem' _ start above)
  | replace _ valid done inv => exact inv.replaced valid done
  | remove _ done inv => exact inv.removed done

/-! ## What a call may return -/

/-- The ids between the bounds of a call and not below the base. -/
def State.InRange (idr : State) (start end_ : BitVec 32) (id : Nat) : Prop :=
  start.toInt ≤ id ∧ idr.base.toNat ≤ id ∧ if end_.toInt > 0 then (id : Int) < end_.toInt else (id : Int) ≤ 2 ^ 31 - 1

/-- An error that changes nothing, or a free id of the range with the pointer stored at it; and no room exactly when
    every id of the range is taken. -/
structure Ranged (idr : State) (ptr : Pointer) (start end_ : BitVec 32) (result : State × Int) : Prop where
  outcome : (result.2 < 0 ∧ ∀ other, idrFind result.1 other = idrFind idr other) ∨
    ∃ id : Nat, result.2 = id ∧ idr.InRange start end_ id ∧ idr.map id = none ∧
      idrFind result.1 (BitVec.ofNat 64 id) = some ptr ∧ ∀ other, other.toNat ≠ id → idrFind result.1 other = idrFind idr other
  full : result.2 = -enospc ↔ ∀ id, idr.InRange start end_ id → idr.map id ≠ none

theorem lastId_toNat (end_ : BitVec 32) : ((lastId end_).toNat : Int) = if end_.toInt > 0 then end_.toInt - 1 else 2 ^ 31 - 1 := by
  unfold lastId
  split
  · rename_i positive
    have word := end_.isLt
    have sign := BitVec.toInt_eq_toNat_cond end_
    have small : 2 * end_.toNat < 2 ^ 32 ∧ 1 ≤ end_.toNat := by
      split at sign
      · omega
      · omega
    rw [if_pos small.1] at sign
    have less : (end_ - 1).toNat = end_.toNat - 1 := BitVec.toNat_sub_of_le (BitVec.le_def.mpr small.2)
    have msb : (end_ - 1).msb = false := by
      rw [BitVec.msb_eq_false_iff_two_mul_lt, less]
      omega
    rw [BitVec.signExtend_eq_setWidth_of_msb_false msb, setWidth_toNat, less, sign]
    omega
  · decide

theorem mem_freeIds {start end_ : BitVec 32} {id : Nat} (start_pos : 0 ≤ start.toInt) :
    id ∈ idr.freeIds start.toNat (lastId end_).toNat ↔ idr.InRange start end_ id ∧ idr.map id = none := by
  have last := lastId_toNat end_
  have first : start.toInt = start.toNat := by
    have word := start.isLt
    have sign := BitVec.toInt_eq_toNat_cond start
    split at sign
    · exact sign
    · omega
  have low : Nat.max start.toNat idr.base.toNat ≤ id ↔ start.toInt ≤ id ∧ idr.base.toNat ≤ id := by
    rw [first]
    exact Nat.max_le.trans (and_congr_left' Nat.cast_le.symm)
  have high : id ≤ (lastId end_).toNat ↔ if end_.toInt > 0 then (id : Int) < end_.toInt else (id : Int) ≤ 2 ^ 31 - 1 := by
    rw [← Nat.cast_le (α := Int), last]
    split
    · exact Int.le_sub_one_iff
    · exact Iff.rfl
  rw [State.freeIds, Set.mem_ofPred_eq, low, high, State.InRange]
  tauto

/-- What a search leaves behind, in terms of the range. -/
theorem Ranged.of_search {ptr : Pointer} {start end_ : BitVec 32} {result : State × Int} (inv : Invariant (· ≠ radixTreeRetry) idr)
    (inv' : Invariant (· ≠ radixTreeRetry) result.1) (start_pos : 0 ≤ start.toInt)
    (search : (∃ id : Nat, result.2 = id ∧ id ∈ idr.freeIds start.toNat (lastId end_).toNat ∧
        result.1.map = Function.update idr.map id (some ptr)) ∨
      (result.1.map = idr.map ∧ (result.2 = -enospc ∧ idr.freeIds start.toNat (lastId end_).toNat = ∅ ∨
        result.2 = -enomem ∧ (idr.freeIds start.toNat (lastId end_).toNat).Nonempty))) :
    Ranged idr ptr start end_ result := by
  have find {idr : State} (inv : Invariant (· ≠ radixTreeRetry) idr) (id : BitVec 64) : idrFind idr id = some ((idr.map id.toNat).getD 0) :=
    idrFind_ok inv.ok fun retry => inv.allowed _ _ retry rfl
  have none_iff : idr.freeIds start.toNat (lastId end_).toNat = ∅ ↔ ∀ id, idr.InRange start end_ id → idr.map id ≠ none := by
    rw [Set.eq_empty_iff_forall_notMem]
    exact forall_congr' fun id => (mem_freeIds start_pos).not.trans not_and
  rcases search with ⟨id, value, free, updated⟩ | ⟨same, error⟩
  · obtain ⟨inside, unused⟩ := (mem_freeIds start_pos).mp free
    have word : id < 2 ^ 64 := by
      have last := lastId_lt end_
      have le := free.2.1
      omega
    have place : (BitVec.ofNat 64 id).toNat = id := by rw [BitVec.toNat_ofNat, Nat.mod_eq_of_lt word]
    refine ⟨.inr ⟨id, value, inside, unused, ?_, fun other away => ?_⟩, ?_⟩
    · rw [find inv', updated, place, Function.update_self]
      rfl
    · rw [find inv', find inv, updated, Function.update_of_ne away]
    · have accepted : result.2 ≠ -enospc := by
        rw [value]
        simp only [enospc]
        omega
      exact iff_of_false accepted fun taken => taken id inside unused
  · have kept (other : BitVec 64) : idrFind result.1 other = idrFind idr other := by rw [find inv', find inv, same]
    rcases error with ⟨value, empty⟩ | ⟨value, some_free⟩
    · refine ⟨.inl ⟨?_, kept⟩, iff_of_true value (none_iff.mp empty)⟩
      rw [value]
      decide
    · refine ⟨.inl ⟨?_, kept⟩, iff_of_false ?_ fun taken => ?_⟩
      · rw [value]
        decide
      · rw [value]
        decide
      · exact some_free.ne_empty (none_iff.mpr taken)

theorem idrAlloc_ranged (inv : Invariant (· ≠ radixTreeRetry) idr) (mem : Memory) {ptr : Pointer} (valid : ptr ≠ radixTreeRetry)
    {start end_ : BitVec 32} (start_pos : 0 ≤ start.toInt) (above : idr.base.toNat ≤ (lastId end_).toNat) :
    Ranged idr ptr start end_ (idrAlloc mem idr ptr start end_) := by
  have last := lastId_lt end_
  have search := idrAllocU32_ok inv.ok mem ptr start (by omega) above
  have inv' := inv.stored valid (idrAlloc_stored inv.ok mem ptr start above)
  refine .of_search inv inv' start_pos ?_
  rw [idrAlloc, if_neg (Int.not_lt.mpr start_pos)]
  rcases search.outcome with ⟨id, done, least, value, updated⟩ | ⟨-, same, ⟨err, empty⟩ | ⟨err, -, some_free⟩⟩
  · simp only [done, ne_eq, not_true, if_false]
    exact .inl ⟨id, (int_of_least least last value).1, least.1, updated⟩
  · have failed : (-enospc : Int) ≠ 0 := by decide
    simp only [err, ne_eq, failed, not_false_eq_true, if_true]
    exact .inr ⟨same, .inl ⟨trivial, empty⟩⟩
  · have failed : (-enomem : Int) ≠ 0 := by decide
    simp only [err, ne_eq, failed, not_false_eq_true, if_true]
    exact .inr ⟨same, .inr ⟨trivial, some_free⟩⟩

/-- The cursor is not below the start, as integers and as words. -/
theorem start_le_cursor {start : BitVec 32} (start_pos : 0 ≤ start.toInt) : start.toNat ≤ (idr.cursor start).toNat := by
  unfold State.cursor
  split
  · exact le_rfl
  · rename_i later
    have start_word := BitVec.toInt_eq_toNat_cond start
    have next_word := BitVec.toInt_eq_toNat_cond idr.next
    split at start_word
    · split at next_word
      · omega
      · omega
    · omega

theorem idrAllocCyclic_ranged (inv : Invariant (· ≠ radixTreeRetry) idr) (mem mem' : Memory) {ptr : Pointer} (valid : ptr ≠ radixTreeRetry)
    {start end_ : BitVec 32} (start_pos : 0 ≤ start.toInt) (above : idr.base.toNat ≤ (lastId end_).toNat) :
    Ranged idr ptr start end_ (idrAllocCyclic mem mem' idr ptr start end_) := by
  have inv' := inv.stored valid (idrAllocCyclic_stored inv.ok mem mem' ptr start above)
  have fewer : idr.freeIds (idr.cursor start).toNat (lastId end_).toNat ⊆ idr.freeIds start.toNat (lastId end_).toNat :=
    State.freeIds_mono (start_le_cursor start_pos)
  refine .of_search inv inv' start_pos ?_
  rcases (idrAllocCyclic_ok inv.ok mem mem' ptr start above).outcome with
    ⟨id, value, least, updated, -⟩ | ⟨same, -, ⟨err, -, empty⟩ | ⟨err, -, some_free⟩⟩
  · refine .inl ⟨id, value, ?_, updated⟩
    rcases least with least | ⟨-, least⟩
    · exact fewer least.1
    · exact least.1
  · exact .inr ⟨same, .inl ⟨err, empty⟩⟩
  · rw [Set.union_eq_right.mpr fewer] at some_free
    exact .inr ⟨same, .inr ⟨err, some_free⟩⟩

/-- In every state that calls with bounds not below the base lead to, ids stay in their range. -/
theorem ids_in_range (run : Reached idr) (mem mem' : Memory) {ptr : Pointer} (valid : ptr ≠ radixTreeRetry) {start end_ : BitVec 32}
    (start_pos : 0 ≤ start.toInt) (above : idr.base.toNat ≤ (lastId end_).toNat) :
    Ranged idr ptr start end_ (idrAlloc mem idr ptr start end_) ∧
      Ranged idr ptr start end_ (idrAllocCyclic mem mem' idr ptr start end_) :=
  ⟨idrAlloc_ranged run.invariant mem valid start_pos above, idrAllocCyclic_ranged run.invariant mem mem' valid start_pos above⟩

/-- A base of 10, and a cursor behind `INT_MAX`. -/
theorem cursor_behind_in_range :
    Ranged (idrSetCursor (idrInitBase 10) (2 ^ 31 + 5)) 8 3 12 (idrAlloc plenty (idrSetCursor (idrInitBase 10) (2 ^ 31 + 5)) 8 3 12) ∧
      Ranged (idrSetCursor (idrInitBase 10) (2 ^ 31 + 5)) 8 3 12
        (idrAllocCyclic plenty plenty (idrSetCursor (idrInitBase 10) (2 ^ 31 + 5)) 8 3 12) :=
  ids_in_range (.setCursor (.init 10) _) plenty plenty (by decide) (by decide) (by decide)

/-! ## A range below the base -/

theorem turn_first (max : Nat) : turn (addChild (idrInitBase 10).rt [] 0) [] 0 0 max = .walk 0 [0] 0 := by
  have tagged : ((addChild (idrInitBase 10).rt [] 0).head.atPath []).tagGet idrFree 0 = true := by decide
  have zero : descend ((addChild (idrInitBase 10).rt [] 0).head.atPath []).shift 0 = 0 := by decide
  unfold turn
  simp only [zero, tagged, if_true]

/-- The first slot of an empty tree, for every bound. -/
theorem idrGetFree_first (max : Nat) : idrGetFree plenty (idrInitBase 10).rt 0 max = .slot (addChild (idrInitBase 10).rt [] 0) [0] 0 := by
  have tags : (idrInitBase 10).rt.tags idrFree = true := by decide
  have last : maxindex (idrInitBase 10).rt.head = 0 := by decide
  have shift : rootShift (idrInitBase 10).rt.head = 0 := by decide
  have head : (idrInitBase 10).rt.head.atPath [] = .item 0 := rfl
  have found := turn_first max
  rw [idrGetFree, idrGetFreeFrom]
  simp only [tags, last, shift, if_true, Nat.not_lt_zero, gt_iff_lt, if_false, and_self]
  rw [idrGetFreeFrom, if_neg (by decide)]
  split
  · rename_i p entry
    cases head.symm.trans entry
    simp only [ne_eq, not_true, if_false, Nat.sub_self]
    split
    · split
      · rename_i result
        cases found.symm.trans result
      · rename_i result
        cases found.symm.trans result
      · rename_i result
        cases found.symm.trans result
        rw [idrGetFreeFrom]
        rfl
    · rename_i failed
      exact absurd rfl failed
  · rename_i entry
    cases head.symm.trans entry

/-- With base 10 an id below 5 is asked for, and 10 is allocated. -/
theorem range_below_base_allocated : ¬ ∀ (idr : State) (mem : Memory) (ptr : Pointer) (start end_ : BitVec 32),
    Reached idr → ptr ≠ radixTreeRetry → 0 ≤ start.toInt → Ranged idr ptr start end_ (idrAlloc mem idr ptr start end_) := by
  intro claim
  have ranged := claim (idrInitBase 10) plenty 8 0 5 (.init 10) (by decide) (by decide)
  have search : (idrAllocU32 plenty (idrInitBase 10) 8 0 (lastId 5)).2 = (10, 0) := by
    have isIdr : (idrInitBase 10).rt.isIdr = true := rfl
    unfold idrAllocU32
    simp only [isIdr, if_true]
    rw [show (if (0 : BitVec 32) < (idrInitBase 10).base then 0 else 0 - (idrInitBase 10).base).toNat = 0 by decide, idrGetFree_first]
    rfl
  have found : (idrAlloc plenty (idrInitBase 10) 8 0 5).2 = 10 := by
    rw [idrAlloc, if_neg (by decide)]
    simp only [search, ne_eq, not_true, if_false]
    decide
  have empty : ∀ id, (idrInitBase 10).InRange 0 5 id → (idrInitBase 10).map id ≠ none := by
    rintro id ⟨-, low, high⟩
    have base : (idrInitBase 10).base.toNat = 10 := rfl
    rw [if_pos (by decide), show (5 : BitVec 32).toInt = 5 by decide] at high
    omega
  have full := ranged.full.mpr empty
  rw [found] at full
  exact absurd full (by decide)

end Miracle.Idr
