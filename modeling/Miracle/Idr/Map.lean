import Miracle.Idr.Delete
import Miracle.Idr.Iterate

/-! # The IDR is a map from ids to pointers

An allocation adds the least free id of its range.  The other functions read and change the map as their names say.
-/

namespace Miracle.Idr

open RadixTree

/-- The pointers of the ids in use. -/
def State.map (idr : State) (id : Nat) : Option Pointer :=
  if idr.base.toNat ≤ id then rootContents idr.rt (id - idr.base.toNat) else none

def State.Ok (idr : State) : Prop := ∃ k, TreeOk k idr.rt

theorem State.map_base_add (idr : State) (i : Nat) : idr.map (i + idr.base.toNat) = rootContents idr.rt i := by
  rw [map, if_pos (Nat.le_add_left ..), Nat.add_sub_cancel]

/-- Another tree at the same base. -/
theorem State.map_congr {idr : State} {rt : Root} (same : rootContents rt = rootContents idr.rt) :
    State.map { idr with rt := rt } = idr.map := by
  funext id
  simp only [map, same]

theorem State.map_update {idr : State} {rt : Root} {i : Nat} {p : Option Pointer}
    (updated : rootContents rt = Function.update (rootContents idr.rt) i p) :
    State.map { idr with rt := rt } = Function.update idr.map (i + idr.base.toNat) p := by
  funext id
  by_cases here : id = i + idr.base.toNat
  · subst here
    rw [Function.update_self, map, if_pos (Nat.le_add_left ..), updated]
    rw [Nat.add_sub_cancel, Function.update_self]
  · rw [Function.update_of_ne here]
    simp only [map, updated]
    split
    · rw [Function.update_of_ne (by omega)]
    · rfl

/-! ## Allocating -/

/-- The free ids of a range, which begins at the base if it begins below it. -/
def State.freeIds (idr : State) (low high : Nat) : Set Nat :=
  {i | Nat.max low idr.base.toNat ≤ i ∧ i ≤ high ∧ idr.map i = none}

/-- What an allocation from `nextid` to `max` does. -/
structure AllocOk (mem : Memory) (idr : State) (ptr : Pointer) (nextid : BitVec 32) (max : Nat)
    (result : State × BitVec 32 × Int) : Prop where
  ok : result.1.Ok
  base : result.1.base = idr.base
  next : result.1.next = idr.next
  outcome : (∃ id, result.2.2 = 0 ∧ IsLeast (idr.freeIds nextid.toNat max) id ∧ result.2.1.toNat = id ∧
      result.1.map = Function.update idr.map id (some ptr)) ∨
    (result.2.1 = nextid ∧ result.1.map = idr.map ∧
      (result.2.2 = -enospc ∧ idr.freeIds nextid.toNat max = ∅ ∨
        result.2.2 = -enomem ∧ Fails mem ∧ (idr.freeIds nextid.toNat max).Nonempty))

theorem base_toNat (idr : State) : (idr.base.setWidth 64).toNat = idr.base.toNat := by
  rw [BitVec.toNat_setWidth]
  exact Nat.mod_eq_of_lt (lt_trans idr.base.isLt (by decide))

theorem index_eq {idr : State} {id : BitVec 64} (above : idr.base.toNat ≤ id.toNat) :
    idr.index id = id.toNat - idr.base.toNat := by
  rw [State.index, BitVec.toNat_sub_of_le (by rwa [BitVec.le_def, base_toNat]), base_toNat]

theorem start_eq {w : Nat} (nextid base : BitVec w) :
    (if nextid < base then 0 else nextid - base).toNat = nextid.toNat - base.toNat := by
  split
  · rename_i below
    rw [BitVec.lt_def] at below
    rw [Nat.sub_eq_zero_of_le below.le]
    exact BitVec.toNat_zero
  · rename_i above
    rw [BitVec.lt_def] at above
    rw [BitVec.toNat_sub_of_le (by rw [BitVec.le_def]; omega)]

theorem idrAllocU32_ok {idr : State} (ok : idr.Ok) (mem : Memory) (ptr : Pointer) (nextid : BitVec 32) {max : BitVec 64}
    (word : max.toNat < 2 ^ 32) (above : idr.base.toNat ≤ max.toNat) :
    AllocOk mem idr ptr nextid max.toNat (idrAllocU32 mem idr ptr nextid max) := by
  obtain ⟨k, ok⟩ := ok
  have small : max.toNat - idr.base.toNat < span 6 := by
    have big : 2 ^ 32 ≤ span 6 := by decide
    omega
  have search := idrGetFree_ok ok mem (nextid.toNat - idr.base.toNat) small
  unfold idrAllocU32
  simp only [ok.isIdr, if_true, start_eq, index_eq above]
  -- an index of the range and its id
  have inRange {i : Nat} : i + idr.base.toNat ∈ idr.freeIds nextid.toNat max.toNat ↔
      nextid.toNat - idr.base.toNat ≤ i ∧ i ≤ max.toNat - idr.base.toNat ∧ rootContents idr.rt i = none := by
    have low : Nat.max nextid.toNat idr.base.toNat ≤ i + idr.base.toNat ↔ nextid.toNat - idr.base.toNat ≤ i := by
      change Max.max nextid.toNat idr.base.toNat ≤ _ ↔ _
      omega
    have high : i + idr.base.toNat ≤ max.toNat ↔ i ≤ max.toNat - idr.base.toNat := by omega
    rw [State.freeIds, Set.mem_ofPred_eq, low, high, idr.map_base_add]
  have ofIndex {id : Nat} (member : id ∈ idr.freeIds nextid.toNat max.toNat) : ∃ i, id = i + idr.base.toNat := by
    have le : Max.max nextid.toNat idr.base.toNat ≤ id := member.1
    exact ⟨id - idr.base.toNat, by omega⟩
  cases result : idrGetFree mem idr.rt (nextid.toNat - idr.base.toNat) (max.toNat - idr.base.toNat) with
  | error rt err =>
      rw [result] at search
      obtain ⟨ok', same, outcome⟩ := search
      refine ⟨ok', rfl, rfl, .inr ⟨rfl, State.map_congr same, ?_⟩⟩
      rcases outcome with ⟨full, used⟩ | ⟨none, fails, i, low, high, free⟩
      · refine .inl ⟨full, ?_⟩
        rw [Set.eq_empty_iff_forall_notMem]
        intro id member
        obtain ⟨i, rfl⟩ := ofIndex member
        obtain ⟨low, high, free⟩ := inRange.mp member
        exact used i low (by omega) free
      · exact .inr ⟨none, fails, _, inRange.mpr ⟨low, high, free⟩⟩
  | slot rt slot index =>
      rw [result] at search
      obtain ⟨n, ok', same, low, high, used, lt, rfl, isNode, tagged⟩ := search
      obtain ⟨ok2, contents⟩ := take_ok ok' lt isNode ptr tagged
      have free : rootContents idr.rt index = none := by
        rw [← same]
        cases use : rootContents rt index with
        | none => rfl
        | some ptr' =>
            have untagged := (ok'.slotOf use).used
            rw [tagged] at untagged
            cases untagged
      rw [same] at contents
      refine ⟨⟨n, ok2⟩, rfl, rfl, .inl ⟨index + idr.base.toNat, rfl, ⟨inRange.mpr ⟨low, high, free⟩, ?_⟩, ?_, ?_⟩⟩
      · intro id member
        obtain ⟨i, rfl⟩ := ofIndex member
        obtain ⟨low', -, free'⟩ := inRange.mp member
        by_contra less
        exact used i low' (by omega) free'
      · have fits : index + idr.base.toNat < 2 ^ 32 := by omega
        change (BitVec.ofNat 32 index + idr.base).toNat = _
        rw [BitVec.toNat_add, BitVec.toNat_ofNat, Nat.mod_eq_of_lt (a := index) (by omega), Nat.mod_eq_of_lt fits]
      · exact State.map_update contents

theorem lastId_lt (end_ : BitVec 32) : (lastId end_).toNat < 2 ^ 31 := by
  unfold lastId
  split
  · rename_i positive
    have word := end_.isLt
    have sign := BitVec.toInt_eq_toNat_cond end_
    have le : (1 : BitVec 32) ≤ end_ := by
      rw [BitVec.le_def]
      change 1 ≤ end_.toNat
      split at sign
      · omega
      · omega
    have less : (end_ - 1).toNat = end_.toNat - 1 := BitVec.toNat_sub_of_le le
    have msb : (end_ - 1).msb = false := by
      rw [BitVec.msb_eq_false_iff_two_mul_lt, less]
      split at sign
      · omega
      · omega
    rw [BitVec.signExtend_eq_setWidth_of_msb_false msb, BitVec.toNat_setWidth, less]
    split at sign
    · omega
    · omega
  · decide

/-- A step of an allocator keeps the tree and stores the pointer at one id or at none. -/
structure Stored (idr : State) (ptr : Pointer) (idr' : State) : Prop where
  ok : idr'.Ok
  base : idr'.base = idr.base
  map : idr'.map = idr.map ∨ ∃ id, idr'.map = Function.update idr.map id (some ptr)

theorem AllocOk.stored {mem : Memory} {idr : State} {ptr : Pointer} {nextid : BitVec 32} {max : Nat}
    {result : State × BitVec 32 × Int} (ok : AllocOk mem idr ptr nextid max result) : Stored idr ptr result.1 := by
  refine ⟨ok.ok, ok.base, ?_⟩
  rcases ok.outcome with ⟨id, -, -, -, updated⟩ | ⟨-, same, -⟩
  · exact .inr ⟨id, updated⟩
  · exact .inl same

/-- An allocation that fails may be followed by another one. -/
theorem AllocOk.again {mem : Memory} {idr idr' : State} {ptr : Pointer} {nextid : BitVec 32} {max : Nat}
    {result : State × BitVec 32 × Int} (ok : AllocOk mem idr ptr nextid max result) (failed : result.2.2 ≠ 0)
    (stored : Stored result.1 ptr idr') : Stored idr ptr idr' := by
  rcases ok.outcome with ⟨id, done, -⟩ | ⟨-, same, -⟩
  · exact absurd done failed
  · refine ⟨stored.ok, stored.base.trans ok.base, ?_⟩
    rw [← same]
    exact stored.map

theorem idrAlloc_stored {idr : State} (ok : idr.Ok) (mem : Memory) (ptr : Pointer) (start : BitVec 32) {end_ : BitVec 32}
    (above : idr.base.toNat ≤ (lastId end_).toNat) : Stored idr ptr (idrAlloc mem idr ptr start end_).1 := by
  have last := lastId_lt end_
  have done := idrAllocU32_ok ok mem ptr start (by omega) above
  unfold idrAlloc
  split
  · exact ⟨ok, rfl, .inl rfl⟩
  · simp only
    split
    · exact done.stored
    · exact done.stored

/-- The id at which `idr_alloc_cyclic` begins. -/
def State.cursor (idr : State) (start : BitVec 32) : BitVec 32 :=
  if idr.next.toInt < start.toInt then start else idr.next

/-- The end of `idr_alloc_cyclic`, after its last search. -/
def advance (result : State × BitVec 32 × Int) : State × Int :=
  if result.2.2 ≠ 0 then (result.1, result.2.2) else ({ result.1 with next := result.2.1 + 1 }, result.2.1.toInt)

section Cyclic

variable {mem mem' : Memory} {idr : State} {ptr : Pointer} {start end_ : BitVec 32} {first : State × BitVec 32 × Int}
variable (found : idrAllocU32 mem idr ptr (idr.cursor start) (lastId end_) = first)

include found

theorem idrAllocCyclic_twice (again : first.2.2 = -enospc ∧ first.2.1 > start) :
    idrAllocCyclic mem mem' idr ptr start end_ = advance (idrAllocU32 mem' first.1 ptr start (lastId end_)) := by
  unfold idrAllocCyclic
  rw [← State.cursor]
  simp only [found, if_pos again]
  rfl

theorem idrAllocCyclic_once (done : ¬ (first.2.2 = -enospc ∧ first.2.1 > start)) :
    idrAllocCyclic mem mem' idr ptr start end_ = advance first := by
  unfold idrAllocCyclic
  rw [← State.cursor]
  simp only [found, if_neg done]
  rfl

end Cyclic

theorem Stored.advance {idr : State} {ptr : Pointer} {result : State × BitVec 32 × Int}
    (stored : Stored idr ptr result.1) : Stored idr ptr (advance result).1 := by
  unfold Idr.advance
  split
  · exact stored
  · exact ⟨stored.ok, stored.base, stored.map⟩

theorem idrAllocCyclic_stored {idr : State} (ok : idr.Ok) (mem mem' : Memory) (ptr : Pointer) (start : BitVec 32)
    {end_ : BitVec 32} (above : idr.base.toNat ≤ (lastId end_).toNat) :
    Stored idr ptr (idrAllocCyclic mem mem' idr ptr start end_).1 := by
  have last := lastId_lt end_
  have word : (lastId end_).toNat < 2 ^ 32 := by omega
  have spec := idrAllocU32_ok ok mem ptr (idr.cursor start) word above
  cases found : idrAllocU32 mem idr ptr (idr.cursor start) (lastId end_) with
  | mk idr' result =>
      rw [found] at spec
      by_cases again : result.2 = -enospc ∧ result.1 > start
      · rw [idrAllocCyclic_twice found again]
        have second := idrAllocU32_ok spec.ok mem' ptr start word (by rwa [spec.base])
        apply Stored.advance
        apply spec.again
        · rw [again.1]
          decide
        · exact second.stored
      · rw [idrAllocCyclic_once found again]
        exact spec.stored.advance

/-- What a cyclic allocation does: it searches from the cursor on and then from the start on, which it takes for a
    `u32`. -/
structure CyclicOk (mem mem' : Memory) (idr : State) (ptr : Pointer) (start : BitVec 32) (max : Nat)
    (result : State × Int) : Prop where
  outcome : (∃ id : Nat, result.2 = id ∧
      (IsLeast (idr.freeIds (idr.cursor start).toNat max) id ∨
        idr.freeIds (idr.cursor start).toNat max = ∅ ∧ IsLeast (idr.freeIds start.toNat max) id) ∧
      result.1.map = Function.update idr.map id (some ptr) ∧ result.1.next.toNat = id + 1) ∨
    (result.1.map = idr.map ∧ result.1.next = idr.next ∧
      (result.2 = -enospc ∧ idr.freeIds (idr.cursor start).toNat max = ∅ ∧ idr.freeIds start.toNat max = ∅ ∨
        result.2 = -enomem ∧ (Fails mem ∨ Fails mem') ∧
          (idr.freeIds (idr.cursor start).toNat max ∪ idr.freeIds start.toNat max).Nonempty))

theorem State.freeIds_mono {idr : State} {low low' high : Nat} (le : low ≤ low') :
    idr.freeIds low' high ⊆ idr.freeIds low high := by
  rintro id ⟨first, rest⟩
  have first : Max.max low' idr.base.toNat ≤ id := first
  refine ⟨?_, rest⟩
  change Max.max low idr.base.toNat ≤ id
  omega

/-- An id below the bound is an `int`, and the cursor moves behind it. -/
theorem int_of_least {idr : State} {low max id : Nat} {value : BitVec 32} (least : IsLeast (idr.freeIds low max) id)
    (word : max < 2 ^ 31) (same : value.toNat = id) : value.toInt = id ∧ (value + 1).toNat = id + 1 := by
  have le : id ≤ max := least.1.2.1
  constructor
  · rw [BitVec.toInt_eq_toNat_cond, same, if_pos (by omega)]
  · rw [BitVec.toNat_add, same]
    exact Nat.mod_eq_of_lt (by change id + 1 < 2 ^ 32; omega)

/-- The last search of `idr_alloc_cyclic` settles the result. -/
theorem AllocOk.advance {mem : Memory} {idr : State} {ptr : Pointer} {nextid : BitVec 32} {max : Nat}
    {result : State × BitVec 32 × Int} (ok : AllocOk mem idr ptr nextid max result) (word : max < 2 ^ 31) :
    (∃ id : Nat, (advance result).2 = id ∧ IsLeast (idr.freeIds nextid.toNat max) id ∧
      (advance result).1.map = Function.update idr.map id (some ptr) ∧ (advance result).1.next.toNat = id + 1) ∨
    ((advance result).1.map = idr.map ∧ (advance result).1.next = idr.next ∧
      ((advance result).2 = -enospc ∧ idr.freeIds nextid.toNat max = ∅ ∨
        (advance result).2 = -enomem ∧ Fails mem ∧ (idr.freeIds nextid.toNat max).Nonempty)) := by
  unfold Idr.advance
  rcases ok.outcome with ⟨id, done, least, value, updated⟩ | ⟨-, same, outcome⟩
  · obtain ⟨int, next⟩ := int_of_least least word value
    rw [if_neg (not_not_intro done)]
    exact .inl ⟨id, int, least, updated, next⟩
  · have failed : result.2.2 ≠ 0 := by
      rcases outcome with ⟨err, -⟩ | ⟨err, -⟩
      · rw [err]
        decide
      · rw [err]
        decide
    rw [if_pos failed]
    exact .inr ⟨same, ok.next, outcome⟩

theorem idrAllocCyclic_ok {idr : State} (ok : idr.Ok) (mem mem' : Memory) (ptr : Pointer) (start : BitVec 32) {end_ : BitVec 32}
    (above : idr.base.toNat ≤ (lastId end_).toNat) :
    CyclicOk mem mem' idr ptr start (lastId end_).toNat (idrAllocCyclic mem mem' idr ptr start end_) := by
  have last := lastId_lt end_
  have word : (lastId end_).toNat < 2 ^ 32 := by omega
  have first := idrAllocU32_ok ok mem ptr (idr.cursor start) word above
  cases found : idrAllocU32 mem idr ptr (idr.cursor start) (lastId end_) with
  | mk idr' result =>
      rw [found] at first
      by_cases again : result.2 = -enospc ∧ result.1 > start
      · rw [idrAllocCyclic_twice found again]
        -- the first search has found nothing and has kept the map
        have none : idr'.map = idr.map ∧ idr.freeIds (idr.cursor start).toNat (lastId end_).toNat = ∅ := by
          rcases first.outcome with ⟨id, done, -⟩ | ⟨-, same, ⟨-, empty⟩ | ⟨err, -⟩⟩
          · exact absurd (again.1.symm.trans done) (by decide)
          · exact ⟨same, empty⟩
          · exact absurd (again.1.symm.trans err) (by decide)
        have ids : idr'.freeIds start.toNat (lastId end_).toNat = idr.freeIds start.toNat (lastId end_).toNat := by
          have base : idr'.base = idr.base := first.base
          simp only [State.freeIds, none.1, base]
        have second := (idrAllocU32_ok first.ok mem' ptr start word (by rwa [first.base])).advance last
        rw [ids, none.1, first.next] at second
        rcases second with ⟨id, value, least, updated, next⟩ | ⟨same, next, ⟨err, empty⟩ | ⟨err, fails, some⟩⟩
        · exact ⟨.inl ⟨id, value, .inr ⟨none.2, least⟩, updated, next⟩⟩
        · exact ⟨.inr ⟨same, next, .inl ⟨err, none.2, empty⟩⟩⟩
        · exact ⟨.inr ⟨same, next, .inr ⟨err, .inr fails, some.inr⟩⟩⟩
      · rw [idrAllocCyclic_once found again]
        have only := first.advance last
        rcases only with ⟨id, value, least, updated, next⟩ | ⟨same, next, ⟨err, empty⟩ | ⟨err, fails, some⟩⟩
        · exact ⟨.inl ⟨id, value, .inl least, updated, next⟩⟩
        · -- the start is not below the cursor
          refine ⟨.inr ⟨same, next, .inl ⟨err, empty, ?_⟩⟩⟩
          rcases first.outcome with ⟨id, -, least, -⟩ | ⟨kept, -, ⟨full, -⟩ | ⟨-, -, some⟩⟩
          · rw [empty] at least
            exact absurd least.1 (Set.notMem_empty id)
          · have stop : ¬ result.1 > start := fun more => again ⟨full, more⟩
            rw [kept, gt_iff_lt, BitVec.lt_def] at stop
            exact Set.subset_eq_empty (State.freeIds_mono (Nat.not_lt.mp stop)) empty
          · rw [empty] at some
            exact absurd some Set.not_nonempty_empty
        · exact ⟨.inr ⟨same, next, .inr ⟨err, .inl fails, some.inl⟩⟩⟩

/-! ## Looking up -/

/-- The index of an id below the base is beyond every tree. -/
theorem State.contents_index {idr : State} (ok : idr.Ok) (id : BitVec 64) :
    rootContents idr.rt (idr.index id) = idr.map id.toNat := by
  obtain ⟨n, ok⟩ := ok
  rw [map]
  split
  · rename_i above
    rw [index_eq above]
  · rename_i below
    have big : span (n + 1) ≤ idr.index id := by
      have small := span_le ok.low
      have word := idr.base.isLt
      rw [index, BitVec.toNat_sub, base_toNat, Nat.mod_eq_of_lt (by omega)]
      omega
    rw [ok.contents_eq, if_neg (Nat.not_lt.mpr big)]

theorem idrFind_ok {idr : State} (ok : idr.Ok) {id : BitVec 64} (valid : idr.map id.toNat ≠ some radixTreeRetry) :
    idrFind idr id = some ((idr.map id.toNat).getD 0) := by
  rw [← State.contents_index ok] at *
  obtain ⟨n, ok⟩ := ok
  obtain ⟨free, inUse⟩ := radixTreeLookup_ok ok (idr.index id)
  rw [idrFind]
  cases used : rootContents idr.rt (idr.index id) with
  | none =>
      rcases free used with none | ⟨slot, found, -⟩
      · rw [none]
        rfl
      · rw [found]
        rfl
  | some ptr =>
      rw [inUse ptr (by rintro rfl; exact valid used) used]
      rfl

/-- A retry entry that is stored under an id keeps the lookup from returning. -/
theorem idrFind_retry {idr : State} (ok : idr.Ok) {id : BitVec 64} (retry : idr.map id.toNat = some radixTreeRetry) :
    idrFind idr id = none := by
  rw [← State.contents_index ok] at retry
  obtain ⟨n, ok⟩ := ok
  rw [idrFind, radixTreeLookup_retry ok retry]
  rfl

/-- A function that changes the map in one place and keeps the rest of the IDR. -/
structure Changed (idr : State) (id : Nat) (p : Option Pointer) (idr' : State) : Prop where
  ok : idr'.Ok
  base : idr'.base = idr.base
  next : idr'.next = idr.next
  map : idr'.map = Function.update idr.map id p

/-- A change of the tree changes the map at the id of the index. -/
theorem Changed.of_tree {idr : State} {id : BitVec 64} {ptr : Pointer} (used : idr.map id.toNat = some ptr)
    {rt : Root} {p : Option Pointer} {k : Nat} (ok' : TreeOk k rt)
    (updated : rootContents rt = Function.update (rootContents idr.rt) (idr.index id) p) :
    Changed idr id.toNat p { idr with rt := rt } := by
  have above : idr.base.toNat ≤ id.toNat := by
    by_contra below
    rw [State.map, if_neg below] at used
    cases used
  have map := State.map_update updated
  rw [index_eq above, Nat.sub_add_cancel above] at map
  exact ⟨⟨k, ok'⟩, rfl, rfl, map⟩

theorem Changed.none {idr : State} (ok : idr.Ok) {id : Nat} (free : idr.map id = none) : Changed idr id none idr := by
  refine ⟨ok, rfl, rfl, ?_⟩
  rw [← free, Function.update_eq_self]

theorem idrRemove_ok {idr : State} (ok : idr.Ok) {id : BitVec 64} (valid : idr.map id.toNat ≠ some radixTreeRetry) :
    ∃ idr', idrRemove idr id = some (idr', (idr.map id.toNat).getD 0) ∧ Changed idr id.toNat none idr' := by
  have ⟨n, tree⟩ := ok
  obtain ⟨free, inUse⟩ := radixTreeLookup_ok tree (idr.index id)
  rw [State.contents_index ok] at free inUse
  unfold idrRemove radixTreeDeleteItem
  cases used : idr.map id.toNat with
  | none =>
      refine ⟨idr, ?_, Changed.none ok used⟩
      rcases free used with none | ⟨slot, found, tagged, -⟩
      · rw [none]
        rfl
      · rw [found]
        simp only [tagged, Bool.or_true, Bool.and_true]
        rfl
  | some ptr =>
      have slot := tree.slotOf (by rw [State.contents_index ok, used])
      obtain ⟨l, ok', updated⟩ := give_ok tree slot.lt slot.isNode slot.used
      refine ⟨_, ?_, Changed.of_tree used ok' updated⟩
      rw [inUse ptr (by rintro rfl; exact valid used) used]
      simp only [slot.used, tree.isIdr, Bool.not_true, Bool.or_false, Bool.and_false]
      rfl

theorem idrReplace_free {idr : State} (ok : idr.Ok) (ptr : Pointer) {id : BitVec 64} (free : idr.map id.toNat = none) :
    idrReplace idr ptr id = some (idr, .error (-enoent)) := by
  have free' := free
  rw [← State.contents_index ok] at free'
  obtain ⟨n, tree⟩ := ok
  unfold idrReplace
  rcases (radixTreeLookup_ok tree _).1 free' with none | ⟨slot, found, -, inside⟩
  · rw [none]
  · rw [found]
    simp only [radixTreeTagGet_ok tree inside, free']
    rfl

theorem idrReplace_used {idr : State} (ok : idr.Ok) (ptr : Pointer) {id : BitVec 64} {old : Pointer}
    (used : idr.map id.toNat = some old) (valid : old ≠ radixTreeRetry) :
    ∃ idr', idrReplace idr ptr id = some (idr', .ok old) ∧ Changed idr id.toNat (some ptr) idr' := by
  have used' := used
  rw [← State.contents_index ok] at used'
  have ⟨n, tree⟩ := ok
  have slot := tree.slotOf used'
  have inside : idr.index id ≤ maxindex idr.rt.head := by
    by_contra beyond
    rw [rootContents, if_neg beyond] at used'
    cases used'
  obtain ⟨ok', updated⟩ := change_ok tree slot.lt slot.isNode ptr slot.used
  refine ⟨_, ?_, Changed.of_tree used ok' updated⟩
  unfold idrReplace
  rw [(radixTreeLookup_ok tree _).2 old valid used']
  simp only [radixTreeTagGet_ok tree inside, used']
  rfl

/-! ## The next id -/

/-- The ids from `low` on with a pointer that is not `NULL`. -/
def State.populatedIds (idr : State) (low : Nat) : Set Nat := {i | low ≤ i ∧ ∃ ptr ≠ 0, idr.map i = some ptr}

/-- The next id with its pointer, or none. -/
def State.NextIs (idr : State) (low : Nat) : Option (BitVec 64 × Pointer) → Prop
  | none => idr.populatedIds low = ∅
  | some (id, ptr) => IsLeast (idr.populatedIds low) id.toNat ∧ idr.map id.toNat = some ptr

theorem State.mem_populatedIds {idr : State} {low i : Nat} :
    i + idr.base.toNat ∈ idr.populatedIds low ↔ low - idr.base.toNat ≤ i ∧ RootPopulated idr.rt i := by
  have bound : low ≤ i + idr.base.toNat ↔ low - idr.base.toNat ≤ i := by omega
  rw [populatedIds, Set.mem_ofPred_eq, bound, map_base_add, RootPopulated]
  simp only [and_comm]

theorem State.base_le_of_populated {idr : State} {low id : Nat} (member : id ∈ idr.populatedIds low) :
    idr.base.toNat ≤ id := by
  obtain ⟨-, ptr, -, used⟩ := member
  by_contra below
  rw [map, if_neg below] at used
  cases used

theorem idrIterFind_ok {idr : State} (ok : idr.Ok) {rounds : Nat} (enough : 2 ^ 36 < rounds) (nextid : BitVec 64) :
    ∃ found, idrIterFind rounds idr nextid = some found ∧ idr.NextIs nextid.toNat found := by
  obtain ⟨n, ok⟩ := ok
  have bound := span_le ok.low
  obtain ⟨found, done, next⟩ := radixTreeNextChunk_ok ok rounds (nextid.toNat - idr.base.toNat) (by omega) (by omega)
  unfold idrIterFind
  simp only [start_eq, base_toNat, done, Option.map_some]
  refine ⟨_, rfl, ?_⟩
  cases found with
  | none =>
      rw [Option.map_none, State.NextIs, Set.eq_empty_iff_forall_notMem]
      intro id member
      have above := State.base_le_of_populated member
      rw [← Nat.sub_add_cancel above, State.mem_populatedIds] at member
      exact next _ member.1 member.2
  | some found =>
      obtain ⟨low, path, populated, before⟩ := next
      have ⟨ptr, used, _⟩ := populated
      have slot := ok.slotOf used
      have lt := slot.lt
      have word := idr.base.isLt
      have id : (BitVec.ofNat 64 found.1 + idr.base.setWidth 64).toNat = found.1 + idr.base.toNat := by
        rw [BitVec.toNat_add, base_toNat, BitVec.toNat_ofNat, Nat.mod_eq_of_lt (a := found.1) (by omega)]
        exact Nat.mod_eq_of_lt (by omega)
      rw [Option.map_some, State.NextIs, id, path, slot.item, State.map_base_add]
      refine ⟨⟨State.mem_populatedIds.mpr ⟨low, populated⟩, ?_⟩, used⟩
      intro id member
      have above := State.base_le_of_populated member
      rw [← Nat.sub_add_cancel above, State.mem_populatedIds] at member
      by_contra less
      exact before _ member.1 (by omega) member.2

/-- The result of a function that finds the next id up to `high`: an id that is in use, or the id as it was and `NULL`. -/
def State.NextUpTo {w : Nat} (idr : State) (low high : Nat) (nextid : BitVec w) (result : BitVec w × Pointer) : Prop :=
  (∃ id, result.1.toNat = id ∧ id ≤ high ∧ IsLeast (idr.populatedIds low) id ∧ idr.map id = some result.2) ∨
    result = (nextid, 0) ∧ ∀ id ∈ idr.populatedIds low, high < id

theorem idrGetNextUl_ok {idr : State} (ok : idr.Ok) {rounds : Nat} (enough : 2 ^ 36 < rounds) (nextid : BitVec 64) :
    ∃ result, idrGetNextUl rounds idr nextid = some result ∧
      idr.NextUpTo nextid.toNat (2 ^ 64 - 1) nextid result := by
  obtain ⟨found, done, next⟩ := idrIterFind_ok ok enough nextid
  unfold idrGetNextUl
  rw [done, Option.map_some]
  refine ⟨_, rfl, ?_⟩
  cases found with
  | none =>
      refine .inr ⟨rfl, ?_⟩
      intro id member
      rw [State.NextIs] at next
      rw [next] at member
      exact absurd member (Set.notMem_empty id)
  | some found => exact .inl ⟨_, rfl, Nat.le_sub_one_of_lt found.1.isLt, next.1, next.2⟩

/-- `*nextid` is an `int`, which is read as a `u64`. -/
theorem idrGetNext_ok {idr : State} (ok : idr.Ok) {rounds : Nat} (enough : 2 ^ 36 < rounds) (nextid : BitVec 32) :
    ∃ result, idrGetNext rounds idr nextid = some result ∧
      idr.NextUpTo (nextid.signExtend 64).toNat (2 ^ 31 - 1) nextid result := by
  obtain ⟨found, done, next⟩ := idrIterFind_ok ok enough (nextid.signExtend 64)
  unfold idrGetNext
  rw [done, Option.map_some]
  refine ⟨_, rfl, ?_⟩
  cases found with
  | none =>
      refine .inr ⟨rfl, ?_⟩
      intro id member
      rw [State.NextIs] at next
      rw [next] at member
      exact absurd member (Set.notMem_empty id)
  | some found =>
      simp only
      split
      · rename_i high
        rw [gt_iff_lt, BitVec.lt_def] at high
        refine .inr ⟨rfl, ?_⟩
        intro id member
        exact lt_of_lt_of_le high (next.1.2 member)
      · rename_i low
        rw [gt_iff_lt, BitVec.lt_def] at low
        have int : found.1.toNat ≤ 2 ^ 31 - 1 := Nat.not_lt.mp low
        refine .inl ⟨_, ?_, int, next.1, next.2⟩
        rw [BitVec.toNat_setWidth]
        exact Nat.mod_eq_of_lt (by omega)

end Miracle.Idr
