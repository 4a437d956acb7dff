import Miracle.Idr.Map

/-! # Runs of an IDR

Every state that the functions reach is a map of the allowed pointers.  A lookup returns as long as nobody stores the
retry entry of the radix tree.
-/

namespace Miracle.Idr

open RadixTree

/-- The states reached by calls that store allowed pointers.  The bound of an allocation is not below the base. -/
inductive Reachable (Allowed : Pointer → Prop) : State → Prop where
  | init (base : BitVec 32) : Reachable Allowed (idrInitBase base)
  | allocU32 {idr : State} {ptr : Pointer} {max : BitVec 32} (run : Reachable Allowed idr) (allowed : Allowed ptr)
      (above : idr.base ≤ max) (mem : Memory) (nextid : BitVec 32) :
      Reachable Allowed (idrAllocU32 mem idr ptr nextid (max.setWidth 64)).1
  | alloc {idr : State} {ptr : Pointer} {end_ : BitVec 32} (run : Reachable Allowed idr) (allowed : Allowed ptr)
      (above : idr.base.toNat ≤ (lastId end_).toNat) (mem : Memory) (start : BitVec 32) :
      Reachable Allowed (idrAlloc mem idr ptr start end_).1
  | allocCyclic {idr : State} {ptr : Pointer} {end_ : BitVec 32} (run : Reachable Allowed idr) (allowed : Allowed ptr)
      (above : idr.base.toNat ≤ (lastId end_).toNat) (mem mem' : Memory) (start : BitVec 32) :
      Reachable Allowed (idrAllocCyclic mem mem' idr ptr start end_).1
  | replace {idr idr' : State} {ptr : Pointer} {id : BitVec 64} {result : Except Int Pointer} (run : Reachable Allowed idr)
      (allowed : Allowed ptr) (done : idrReplace idr ptr id = some (idr', result)) : Reachable Allowed idr'
  | remove {idr idr' : State} {id : BitVec 64} {old : Pointer} (run : Reachable Allowed idr)
      (done : idrRemove idr id = some (idr', old)) : Reachable Allowed idr'

theorem idrInitBase_ok (base : BitVec 32) : (idrInitBase base).Ok :=
  ⟨0, .null 0, fun _ => rfl, rfl, Nat.zero_le 5⟩

theorem idrInitBase_map (base : BitVec 32) : (idrInitBase base).map = fun _ => none := by
  funext id
  simp only [State.map, idrInitBase, rootContents, contents, Entry.null, ite_self]

/-- The tree is in order and every pointer of the map is an allowed one. -/
structure Invariant (Allowed : Pointer → Prop) (idr : State) : Prop where
  ok : idr.Ok
  allowed : ∀ id ptr, idr.map id = some ptr → Allowed ptr

theorem allowed_update {Allowed : Pointer → Prop} {map : Nat → Option Pointer} (all : ∀ id ptr, map id = some ptr → Allowed ptr)
    {p : Option Pointer} (allowed : ∀ ptr, p = some ptr → Allowed ptr) (place : Nat) :
    ∀ id ptr, Function.update map place p id = some ptr → Allowed ptr := by
  intro id ptr used
  by_cases here : id = place
  · subst here
    rw [Function.update_self] at used
    exact allowed ptr used
  · rw [Function.update_of_ne here] at used
    exact all id ptr used

variable {Allowed : Pointer → Prop} {idr idr' : State}

theorem Invariant.stored (inv : Invariant Allowed idr) {ptr : Pointer} (allowed : Allowed ptr) (stored : Stored idr ptr idr') :
    Invariant Allowed idr' := by
  refine ⟨stored.ok, ?_⟩
  rcases stored.map with same | ⟨id, updated⟩
  · rw [same]
    exact inv.allowed
  · rw [updated]
    apply allowed_update inv.allowed
    rintro _ ⟨⟩
    exact allowed

theorem Invariant.changed (inv : Invariant Allowed idr) {id : Nat} {p : Option Pointer}
    (allowed : ∀ ptr, p = some ptr → Allowed ptr) (changed : Changed idr id p idr') : Invariant Allowed idr' := by
  refine ⟨changed.ok, ?_⟩
  rw [changed.map]
  exact allowed_update inv.allowed allowed id

theorem setWidth_toNat (max : BitVec 32) : (max.setWidth 64).toNat = max.toNat := by
  rw [BitVec.toNat_setWidth]
  exact Nat.mod_eq_of_lt (lt_trans max.isLt (by decide))

/-- `idr_alloc_u32` for a bound that is a `u32` -/
theorem idrAllocU32_word (ok : idr.Ok) (mem : Memory) (ptr : Pointer) (nextid : BitVec 32) {max : BitVec 32}
    (above : idr.base ≤ max) : AllocOk mem idr ptr nextid max.toNat (idrAllocU32 mem idr ptr nextid (max.setWidth 64)) := by
  have word : (max.setWidth 64).toNat < 2 ^ 32 := by
    rw [setWidth_toNat]
    exact max.isLt
  have above' : idr.base.toNat ≤ (max.setWidth 64).toNat := by
    rw [setWidth_toNat]
    exact BitVec.le_def.mp above
  have done := idrAllocU32_ok ok mem ptr nextid word above'
  rwa [setWidth_toNat] at done

theorem Invariant.replaced (inv : Invariant (· ≠ radixTreeRetry) idr) {ptr : Pointer} {id : BitVec 64} {result : Except Int Pointer}
    (allowed : ptr ≠ radixTreeRetry) (done : idrReplace idr ptr id = some (idr', result)) : Invariant (· ≠ radixTreeRetry) idr' := by
  cases used : idr.map id.toNat with
  | none =>
      rw [idrReplace_free inv.ok ptr used] at done
      cases done
      exact inv
  | some old =>
      obtain ⟨next, done', changed⟩ := idrReplace_used inv.ok ptr used (inv.allowed _ _ used)
      rw [done'] at done
      cases done
      apply inv.changed _ changed
      rintro _ ⟨⟩
      exact allowed

theorem Invariant.removed (inv : Invariant (· ≠ radixTreeRetry) idr) {id : BitVec 64} {old : Pointer}
    (done : idrRemove idr id = some (idr', old)) : Invariant (· ≠ radixTreeRetry) idr' := by
  have valid : idr.map id.toNat ≠ some radixTreeRetry := fun retry => inv.allowed _ _ retry rfl
  obtain ⟨next, done', changed⟩ := idrRemove_ok inv.ok valid
  rw [done'] at done
  cases done
  apply inv.changed _ changed
  rintro _ ⟨⟩

theorem Reachable.invariant (run : Reachable (· ≠ radixTreeRetry) idr) : Invariant (· ≠ radixTreeRetry) idr := by
  induction run with
  | init base =>
      refine ⟨idrInitBase_ok base, ?_⟩
      rw [idrInitBase_map]
      intro id ptr used
      cases used
  | allocU32 _ allowed above mem nextid inv =>
      exact inv.stored allowed (idrAllocU32_word inv.ok mem _ nextid above).stored
  | alloc _ allowed above mem start inv => exact inv.stored allowed (idrAlloc_stored inv.ok mem _ start above)
  | allocCyclic _ allowed above mem mem' start inv =>
      exact inv.stored allowed (idrAllocCyclic_stored inv.ok mem mem' _ start above)
  | replace _ allowed done inv => exact inv.replaced allowed done
  | remove _ done inv => exact inv.removed done

/-! ## The IDR and its map -/

/-- In every state that the functions reach with pointers other than the retry entry, they do what their names say to
    the map. -/
theorem idr_refines_map (run : Reachable (· ≠ radixTreeRetry) idr) :
    (∀ base, (idrInitBase base).map = fun _ => none) ∧
    (∀ mem ptr nextid (max : BitVec 32), idr.base ≤ max →
      AllocOk mem idr ptr nextid max.toNat (idrAllocU32 mem idr ptr nextid (max.setWidth 64))) ∧
    (∀ mem mem' ptr start end_, idr.base.toNat ≤ (lastId end_).toNat →
      CyclicOk mem mem' idr ptr start (lastId end_).toNat (idrAllocCyclic mem mem' idr ptr start end_)) ∧
    (∀ id, idrFind idr id = some ((idr.map id.toNat).getD 0)) ∧
    (∀ id, ∃ idr', idrRemove idr id = some (idr', (idr.map id.toNat).getD 0) ∧ Changed idr id.toNat none idr') ∧
    (∀ ptr id, idr.map id.toNat = none → idrReplace idr ptr id = some (idr, .error (-enoent))) ∧
    (∀ ptr id old, idr.map id.toNat = some old →
      ∃ idr', idrReplace idr ptr id = some (idr', .ok old) ∧ Changed idr id.toNat (some ptr) idr') ∧
    (∀ rounds, 2 ^ 36 < rounds → ∀ nextid, ∃ result, idrGetNextUl rounds idr nextid = some result ∧
      idr.NextUpTo nextid.toNat (2 ^ 64 - 1) nextid result) ∧
    (∀ rounds, 2 ^ 36 < rounds → ∀ nextid, ∃ result, idrGetNext rounds idr nextid = some result ∧
      idr.NextUpTo (nextid.signExtend 64).toNat (2 ^ 31 - 1) nextid result) := by
  have ⟨ok, allowed⟩ := run.invariant
  have valid (id : Nat) : idr.map id ≠ some radixTreeRetry := fun retry => allowed _ _ retry rfl
  refine ⟨idrInitBase_map, ?_, ?_, ?_, ?_, ?_, ?_, ?_, ?_⟩
  · intro mem ptr nextid max above
    exact idrAllocU32_word ok mem ptr nextid above
  · intro mem mem' ptr start end_ above
    exact idrAllocCyclic_ok ok mem mem' ptr start above
  · intro id
    exact idrFind_ok ok (valid _)
  · intro id
    exact idrRemove_ok ok (valid _)
  · intro ptr id free
    exact idrReplace_free ok ptr free
  · intro ptr id old used
    exact idrReplace_used ok ptr used (allowed _ _ used)
  · intro rounds enough nextid
    exact idrGetNextUl_ok ok enough nextid
  · intro rounds enough nextid
    exact idrGetNext_ok ok enough nextid

/-- No allocation of a node fails. -/
def plenty : Memory := fun _ => true

theorem not_fails_plenty : ¬ Fails plenty := by
  rintro ⟨n, none⟩
  cases none

/-- The id 1 is in use with the pointer `NULL`. -/
def oneAllocated : State := (idrAllocCyclic plenty plenty (idrInitBase 0) 0 1 2).1

theorem oneAllocated_reachable : Reachable (· ≠ radixTreeRetry) oneAllocated :=
  .allocCyclic (.init 0) (by decide) (Nat.zero_le _) plenty plenty 1

theorem oneAllocated_spec : oneAllocated.map = Function.update (fun _ => none) 1 (some 0) ∧ oneAllocated.next = 2 ∧
    oneAllocated.base = 0 := by
  have above : (idrInitBase 0).base.toNat ≤ (lastId 2).toNat := Nat.zero_le _
  have done := idrAllocCyclic_ok (idrInitBase_ok 0) plenty plenty 0 1 above
  have base := (idrAllocCyclic_stored (idrInitBase_ok 0) plenty plenty 0 1 above).base
  have cursor : (idrInitBase 0).cursor 1 = 1 := by decide
  have last : (lastId 2).toNat = 1 := by decide
  have ids : (idrInitBase 0).freeIds (1 : BitVec 32).toNat 1 = {1} := by
    ext i
    rw [State.freeIds, idrInitBase_map]
    constructor
    · rintro ⟨low, high, -⟩
      exact le_antisymm high low
    · rintro rfl
      exact ⟨le_rfl, le_rfl, rfl⟩
  rcases done.outcome with ⟨id, -, least, updated, next⟩ | ⟨-, -, ⟨-, empty, -⟩ | ⟨-, fails, -⟩⟩
  · rw [cursor, last, ids] at least
    have one : id = 1 := by
      rcases least with least | ⟨-, least⟩
      · exact least.1
      · exact least.1
    rw [one] at updated next
    rw [idrInitBase_map] at updated
    exact ⟨updated, BitVec.eq_of_toNat_eq next, base⟩
  · rw [cursor, last, ids] at empty
    exact absurd empty (Set.singleton_ne_empty 1)
  · exact absurd fails (by simp only [not_fails_plenty, or_self, not_false_eq_true])

/-- `NULL` is a pointer of the map. -/
theorem oneAllocated_refines : idrFind oneAllocated 1 = some 0 ∧
    idrReplace oneAllocated 8 0 = some (oneAllocated, .error (-enoent)) ∧
    (∃ idr', idrReplace oneAllocated 8 1 = some (idr', .ok 0) ∧ Changed oneAllocated 1 (some 8) idr') := by
  obtain ⟨-, -, -, find, -, free, used, -⟩ := idr_refines_map oneAllocated_reachable
  have map := oneAllocated_spec.1
  refine ⟨?_, ?_, ?_⟩
  · rw [find, map]
    rfl
  · apply free
    rw [map]
    rfl
  · apply used
    rw [map]
    rfl

/-- The id 0 is in use with the retry entry. -/
def retryStored : State := (idrAllocU32 plenty (idrInitBase 0) radixTreeRetry 0 0).1

theorem retryStored_map : retryStored.Ok ∧ retryStored.map 0 = some radixTreeRetry := by
  have above : (idrInitBase 0).base ≤ (0 : BitVec 32) := by decide
  have done := idrAllocU32_word (idrInitBase_ok 0) plenty radixTreeRetry 0 above
  have free : 0 ∈ (idrInitBase 0).freeIds (0 : BitVec 32).toNat (0 : BitVec 32).toNat := by
    rw [State.freeIds, idrInitBase_map]
    exact ⟨le_rfl, le_rfl, rfl⟩
  refine ⟨done.ok, ?_⟩
  rcases done.outcome with ⟨id, -, least, -, updated⟩ | ⟨-, -, ⟨-, empty⟩ | ⟨-, fails, -⟩⟩
  · have zero : id = 0 := Nat.le_zero.mp (least.2 free)
    rw [zero] at updated
    change (idrAllocU32 plenty (idrInitBase 0) radixTreeRetry 0 ((0 : BitVec 32).setWidth 64)).1.map 0 = _
    rw [updated, Function.update_self]
  · rw [empty] at free
    exact absurd free (Set.notMem_empty 0)
  · exact absurd fails not_fails_plenty

/-- A retry entry that is stored keeps `idr_find` from returning, and a start below zero is above every id. -/
theorem idr_find_loops : Reachable (fun _ => True) retryStored ∧ retryStored.map 0 = some radixTreeRetry ∧
    idrFind retryStored 0 = none ∧
    Reachable (· ≠ radixTreeRetry) oneAllocated ∧ oneAllocated.map 0 = none ∧
    (idrAllocCyclic plenty plenty oneAllocated 8 (-1) 2).2 = -enospc := by
  obtain ⟨ok, stored⟩ := retryStored_map
  obtain ⟨map, next, base⟩ := oneAllocated_spec
  have zero : (idrInitBase 0).base ≤ (0 : BitVec 32) := by decide
  refine ⟨.allocU32 (.init 0) trivial zero plenty 0, stored, idrFind_retry ok stored, oneAllocated_reachable,
    ?_, ?_⟩
  · rw [map]
    rfl
  · have above : oneAllocated.base.toNat ≤ (lastId 2).toNat := by
      rw [base]
      exact Nat.zero_le _
    have done := idrAllocCyclic_ok oneAllocated_reachable.invariant.ok plenty plenty 8 (-1) above
    have cursor : oneAllocated.cursor (-1) = 2 := by
      rw [State.cursor, next]
      rfl
    have none {low : Nat} (high : 1 < low) : oneAllocated.freeIds low (lastId 2).toNat = ∅ := by
      rw [Set.eq_empty_iff_forall_notMem]
      rintro id ⟨le, le', -⟩
      have le : Max.max low oneAllocated.base.toNat ≤ id := le
      have le' : id ≤ 1 := le'
      omega
    rcases done.outcome with ⟨id, -, least, -⟩ | ⟨-, -, ⟨err, -⟩ | ⟨-, fails, -⟩⟩
    · rw [cursor, none (show 1 < (2 : BitVec 32).toNat by decide), none (show 1 < (-1 : BitVec 32).toNat by decide)] at least
      rcases least with least | ⟨-, least⟩
      · exact absurd least.1 (Set.notMem_empty id)
      · exact absurd least.1 (Set.notMem_empty id)
    · exact err
    · exact absurd fails (by simp only [not_fails_plenty, or_self, not_false_eq_true])

end Miracle.Idr
