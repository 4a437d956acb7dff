import Miracle.Memblock.RegionQuery
import Miracle.Memblock.Attributes

/-! # Looking up an address

`memblock_search` is a binary search whose indices are `unsigned int` and whose result is an
`int`.  Up to `2 ^ 31` regions it finds what a scan of the array would find; the index of a
later region is no `int`.
-/

namespace Miracle.Memblock

open Extent

/-! ## The functions -/

/-- The rounds of `memblock_search` with the indices it reads; `none` while it is running. -/
def memblockSearchRun (t : MemblockType) (addr : Nat) : Nat → Nat → Nat → Option (Int × List Nat)
  | 0, _, _ => none
  | rounds + 1, left, right =>
      let mid := (right + left) % 2 ^ 32 / 2
      let again := fun result : Int × List Nat => (result.1, mid :: result.2)
      if addr < (t.rgn mid).base then
        if left < mid then (memblockSearchRun t addr rounds left mid).map again else some (-1, [mid])
      else if addr ≥ (t.rgn mid).limit then
        if mid + 1 < right then (memblockSearchRun t addr rounds (mid + 1) right).map again else some (-1, [mid])
      else some (if mid < 2 ^ 31 then (mid : Int) else (mid : Int) - 2 ^ 32, [mid])

def memblockIsReserved (mb : State) (addr : Nat) : Bool := memblockSearch mb.reserved addr != -1

def memblockIsMemory (mb : State) (addr : Nat) : Bool := memblockSearch mb.memory addr != -1

def memblockIsMapMemory (mb : State) (addr : Nat) : Bool :=
  let i := memblockSearch mb.memory addr
  if i = -1 then false else !memblockIsNomap (mb.memory.rgn i.toNat)

def memblockAddrsOverlap (base1 size1 base2 size2 : Nat) : Bool :=
  decide (base1 < u64 (base2 + size2) ∧ base2 < u64 (base1 + size1))

/-- `memblock_overlaps_region`: the loop stops at the first region that overlaps. -/
def memblockOverlapsRegion (t : MemblockType) (base size : Nat) : Bool :=
  t.regions.any fun r => memblockAddrsOverlap base size r.base r.size

def memblockIsRegionReserved (mb : State) (base size : Nat) : Bool :=
  memblockOverlapsRegion mb.reserved base (memblockCapSize base size)

def pageShift : Nat := 12

/-- `pfn_valid` -/
def pfnValid (mb : State) (pfn : Nat) : Bool :=
  let addr := u64 (pfn <<< pageShift)
  if addr >>> pageShift ≠ pfn then false else memblockIsMapMemory mb addr

/-! ## What a scan says -/

/-- The index of the one region with the address, or `-1` where there is none. -/
def IndexOf (t : MemblockType) (addr : Nat) (idx : Int) : Prop :=
  (∃ i : Nat, idx = i ∧ i < t.cnt ∧ (t.rgn i).Contains addr ∧ ∀ j, j < t.cnt → (t.rgn j).Contains addr → j = i) ∨
    (idx = -1 ∧ ∀ r ∈ t.regions, ¬ r.Contains addr)

def MapMemory (mb : State) (addr : Nat) : Prop :=
  ∃ flags, mb.map .memory addr = some flags ∧ flags &&& Flags.nomap = 0

/-- Lookups agree with a scan of the arrays, for every 64 bit argument. -/
structure LookupCorrect (mb : State) : Prop where
  search : ∀ ty addr, addr < 2 ^ 64 → ∃ rounds idx read,
    memblockSearchRun (mb.type ty) addr rounds 0 ((mb.type ty).cnt % 2 ^ 32) = some (idx, read) ∧
      memblockSearch (mb.type ty) addr = idx ∧ (∀ i ∈ read, i < (mb.type ty).cnt) ∧ IndexOf (mb.type ty) addr idx
  isMemory : ∀ addr, addr < 2 ^ 64 → (memblockIsMemory mb addr = true ↔ mb.map .memory addr ≠ none)
  isReserved : ∀ addr, addr < 2 ^ 64 → (memblockIsReserved mb addr = true ↔ mb.map .reserved addr ≠ none)
  isMapMemory : ∀ addr, addr < 2 ^ 64 → (memblockIsMapMemory mb addr = true ↔ MapMemory mb addr)
  isRegionReserved : ∀ base size, base < 2 ^ 64 → size < 2 ^ 64 → 0 < size →
    (memblockIsRegionReserved mb base size = true ↔ ∃ a, InRange base size a ∧ mb.map .reserved a ≠ none)
  valid : ∀ pfn, pfn < 2 ^ 64 →
    (pfnValid mb pfn = true ↔ pfn * 2 ^ 12 < 2 ^ 64 ∧ MapMemory mb (pfn * 2 ^ 12))

section Search

variable {t : MemblockType}

/-- The result of a search is in the range of an `int`. -/
theorem searchRun_lt {addr rounds left right : Nat} {result : Int × List Nat}
    (done : memblockSearchRun t addr rounds left right = some result) : result.1 < 2 ^ 31 := by
  induction rounds generalizing left right result with
  | zero => cases done
  | succ rounds ih =>
      simp only [memblockSearchRun] at done
      split at done
      · split at done
        · obtain ⟨inner, run, rfl⟩ := Option.map_eq_some_iff.mp done
          exact @ih _ _ inner run
        · cases done
          exact (by decide : (-1 : Int) < 2 ^ 31)
      · split at done
        · split at done
          · obtain ⟨inner, run, rfl⟩ := Option.map_eq_some_iff.mp done
            exact @ih _ _ inner run
          · cases done
            exact (by decide : (-1 : Int) < 2 ^ 31)
        · cases done
          have half : (right + left) % 2 ^ 32 / 2 < 2 ^ 31 := by omega
          simp only [if_pos half]
          omega

/-- With few regions the search ends, reads only entries below `cnt` and computes the result
    of the loop. -/
theorem searchRun_ends (few : t.cnt ≤ 2 ^ 31) {addr fuel left right : Nat} (lt : left < right) (le : right ≤ t.cnt)
    (rounds : right - left < fuel) :
    ∃ read, memblockSearchRun t addr fuel left right = some (memblockSearchLoop t addr fuel left right, read) ∧
      ∀ i ∈ read, i < t.cnt := by
  induction fuel generalizing left right with
  | zero => omega
  | succ fuel ih =>
      have sum : (right + left) % 2 ^ 32 = right + left := Nat.mod_eq_of_lt (by omega)
      simp only [memblockSearchRun, memblockSearchLoop, sum]
      generalize half : (right + left) / 2 = mid
      have inside : mid < t.cnt := by omega
      have single : ∀ i ∈ [mid], i < t.cnt := fun i member => List.mem_singleton.mp member ▸ inside
      have extend (read : List Nat) (rest : ∀ i ∈ read, i < t.cnt) : ∀ i ∈ mid :: read, i < t.cnt :=
        fun i member => (List.mem_cons.mp member).elim (fun same => same ▸ inside) (rest i)
      split
      · split
        · rename_i more
          obtain ⟨read, run, bound⟩ := ih more (by omega) (by omega)
          rw [run]
          exact ⟨mid :: read, rfl, extend read bound⟩
        · exact ⟨[mid], rfl, single⟩
      · split
        · split
          · rename_i more
            obtain ⟨read, run, bound⟩ := ih more le (by omega)
            rw [run]
            exact ⟨mid :: read, rfl, extend read bound⟩
          · exact ⟨[mid], rfl, single⟩
        · exact ⟨[mid], rfl, single⟩

theorem search_indexOf (inv : TypeInv t) (few : t.cnt ≤ 2 ^ 31) (addr : Nat) : IndexOf t addr (memblockSearch t addr) := by
  rcases search_spec inv few addr with ⟨i, lt, found, inside⟩ | missing
  · refine .inl ⟨i, found, lt, inside, fun j lt' inside' => ?_⟩
    rcases Nat.lt_trichotomy i j with before | same | after
    · have sorted := rgn_sorted inv before lt'
      have high := inside.2
      have low := inside'.1
      omega
    · exact same.symm
    · have sorted := rgn_sorted inv after lt
      have high := inside'.2
      have low := inside.1
      omega
  · exact .inr missing

theorem search_found_iff {l : List Region} (contents : Contents t l) (inv : TypeInv t) (few : t.cnt ≤ 2 ^ 31)
    (addr : Nat) : memblockSearch t addr ≠ -1 ↔ lookup t.regions addr ≠ none := by
  rcases search_spec inv few addr with ⟨i, lt, found, inside⟩ | ⟨missing, nobody⟩
  · have here := lookup_rgn contents lt inside
    rw [found, here]
    constructor
    · exact fun _ => Option.some_ne_none _
    · intro _
      omega
  · rw [missing, lookup_eq_none_iff.mpr nobody]
    simp

end Search

/-! ## The other lookups -/

section

variable {mb : State}

theorem isMapMemory_iff (inv : Inv mb) (few : mb.memory.cnt ≤ 2 ^ 31) (addr : Nat) :
    memblockIsMapMemory mb addr = true ↔ MapMemory mb addr := by
  have typeInv : TypeInv mb.memory := inv .memory
  obtain ⟨l, contents⟩ := typeInv.contents
  unfold memblockIsMapMemory MapMemory
  rcases search_spec typeInv few addr with ⟨i, lt, found, inside⟩ | ⟨missing, nobody⟩
  · have here : mb.map .memory addr = some (mb.memory.rgn i).tag := lookup_rgn contents lt inside
    have real : ¬ ((i : Int) = -1) := by omega
    simp only [found, if_neg real, Int.toNat_natCast, here, Option.some.injEq, exists_eq_left']
    simp [memblockIsNomap]
  · have none : mb.map .memory addr = none := lookup_eq_none_iff.mpr nobody
    simp [missing, none]

/-- The scan for an overlap needs no bound on the number of regions. -/
theorem isRegionReserved_iff (inv : Inv mb) {base size : Nat} (low : base ≤ physAddrMax) (some_bytes : 0 < size) :
    memblockIsRegionReserved mb base size = true ↔ ∃ a, InRange base size a ∧ mb.map .reserved a ≠ none := by
  have typeInv : TypeInv mb.reserved := inv .reserved
  have fits : base + memblockCapSize base size ≤ physAddrMax := by
    unfold memblockCapSize
    omega
  have end_ : u64 (base + memblockCapSize base size) = base + memblockCapSize base size :=
    u64_of_lt (by simp only [physAddrMax] at fits; omega)
  have overlap {r : Region} (member : r ∈ mb.reserved.regions) :
      memblockAddrsOverlap base (memblockCapSize base size) r.base r.size = true ↔
        base < r.stop ∧ r.base < base + memblockCapSize base size := by
    have limit : u64 (r.base + r.size) = r.stop := limit_of_le (typeInv.bounded r member)
    simp only [memblockAddrsOverlap, limit, end_, decide_eq_true_eq]
  unfold memblockIsRegionReserved memblockOverlapsRegion
  rw [List.any_eq_true]
  constructor
  · rintro ⟨r, member, meets⟩
    obtain ⟨above, below⟩ := (overlap member).mp meets
    -- a common address: where the later of the two begins
    have pos : 0 < r.size := by
      rcases typeInv.sized with sized | dummy
      · exact sized r member
      · rw [dummy] at member
        obtain rfl := List.mem_singleton.mp member
        exact absurd above (Nat.not_lt_zero base)
    have inRange : InRange base size (max base r.base) := by
      have high := typeInv.bounded r member
      refine ⟨le_max_left _ _, ?_⟩
      unfold memblockCapSize at below ⊢
      omega
    refine ⟨max base r.base, inRange, fun absent => ?_⟩
    refine lookup_eq_none_iff.mp absent r member ⟨le_max_right _ _, ?_⟩
    simp only [stop] at above ⊢
    omega
  · rintro ⟨a, ⟨above, below⟩, present⟩
    have hit : ¬ ∀ r ∈ mb.reserved.regions, ¬ r.Contains a := fun nobody => present (lookup_eq_none_iff.mpr nobody)
    push Not at hit
    obtain ⟨r, member, inside⟩ := hit
    refine ⟨r, member, (overlap member).mpr ?_⟩
    have low := inside.1
    have high := inside.2
    omega

theorem pfnValid_iff (inv : Inv mb) (few : mb.memory.cnt ≤ 2 ^ 31) (pfn : Nat) :
    pfnValid mb pfn = true ↔ pfn * 2 ^ 12 < 2 ^ 64 ∧ MapMemory mb (pfn * 2 ^ 12) := by
  unfold pfnValid pageShift
  simp only [Nat.shiftLeft_eq, Nat.shiftRight_eq_div_pow]
  by_cases fits : pfn * 2 ^ 12 < 2 ^ 64
  · rw [u64_of_lt fits, Nat.mul_div_cancel _ (by decide), if_neg (not_not_intro rfl), isMapMemory_iff inv few]
    exact (and_iff_right fits).symm
  · have lost : u64 (pfn * 2 ^ 12) / 2 ^ 12 ≠ pfn := by
      have word := u64_lt (pfn * 2 ^ 12)
      omega
    rw [if_pos lost]
    exact iff_of_false Bool.false_ne_true fun h => fits h.1

theorem lookupCorrect_of_few (inv : Inv mb) (few : ∀ ty, (mb.type ty).cnt ≤ 2 ^ 31) : LookupCorrect mb where
  search ty addr _ := by
    have small : (mb.type ty).cnt % 2 ^ 32 = (mb.type ty).cnt := Nat.mod_eq_of_lt (by have := few ty; omega)
    obtain ⟨read, run, bound⟩ := @searchRun_ends (mb.type ty) (few ty) addr ((mb.type ty).cnt + 1) 0 (mb.type ty).cnt
      (inv ty).cnt_pos le_rfl (by omega)
    have same : memblockSearch (mb.type ty) addr =
        memblockSearchLoop (mb.type ty) addr ((mb.type ty).cnt + 1) 0 (mb.type ty).cnt := by
      rw [memblockSearch, small]
    refine ⟨(mb.type ty).cnt + 1, _, read, by rw [small]; exact run, same, bound, ?_⟩
    rw [← same]
    exact search_indexOf (inv ty) (few ty) addr
  isMemory addr _ := by
    obtain ⟨l, contents⟩ := (inv .memory).contents
    rw [memblockIsMemory, bne_iff_ne]
    exact search_found_iff contents (inv .memory) (few .memory) addr
  isReserved addr _ := by
    obtain ⟨l, contents⟩ := (inv .reserved).contents
    rw [memblockIsReserved, bne_iff_ne]
    exact search_found_iff contents (inv .reserved) (few .reserved) addr
  isMapMemory addr _ := isMapMemory_iff inv (few .memory) addr
  isRegionReserved base size low _ pos := isRegionReserved_iff inv (by simp only [physAddrMax]; omega) pos
  valid pfn _ := pfnValid_iff inv (few .memory) pfn

/-- The region with index `2 ^ 31` is not found under its index. -/
theorem few_of_search {ty : TypeId} (inv : Inv mb)
    (search : ∀ addr, addr < 2 ^ 64 → ∃ rounds idx read,
      memblockSearchRun (mb.type ty) addr rounds 0 ((mb.type ty).cnt % 2 ^ 32) = some (idx, read) ∧
        IndexOf (mb.type ty) addr idx) : (mb.type ty).cnt ≤ 2 ^ 31 := by
  by_contra many
  have inside : 2 ^ 31 < (mb.type ty).cnt := by omega
  have member := rgn_mem inside
  have pos : 0 < ((mb.type ty).rgn (2 ^ 31)).size := by
    rcases (inv ty).sized with sized | dummy
    · exact sized _ member
    · have one : (mb.type ty).cnt = 1 := by rw [MemblockType.cnt, dummy]; rfl
      omega
  have bound := (inv ty).bounded _ member
  have contains : ((mb.type ty).rgn (2 ^ 31)).Contains ((mb.type ty).rgn (2 ^ 31)).base :=
    ⟨le_rfl, Nat.lt_add_of_pos_right pos⟩
  obtain ⟨rounds, idx, read, run, ⟨i, same, lt, -, only⟩ | ⟨-, nobody⟩⟩ :=
    search ((mb.type ty).rgn (2 ^ 31)).base (by simp only [stop, physAddrMax] at bound; omega)
  · have word : idx < 2 ^ 31 := searchRun_lt run
    have index := only (2 ^ 31) inside contains
    omega
  · exact nobody _ member contains

end

/-- Lookups are right exactly for arrays whose indices are all `int`s. -/
theorem lookupCorrect_iff {mb : State} (inv : Inv mb) :
    LookupCorrect mb ↔ mb.memory.cnt ≤ 2 ^ 31 ∧ mb.reserved.cnt ≤ 2 ^ 31 := by
  constructor
  · intro correct
    have few (ty : TypeId) : (mb.type ty).cnt ≤ 2 ^ 31 := few_of_search inv fun addr word => by
      obtain ⟨rounds, idx, read, run, -, -, index⟩ := correct.search ty addr word
      exact ⟨rounds, idx, read, run, index⟩
    exact ⟨few .memory, few .reserved⟩
  · rintro ⟨memory, reserved⟩
    refine lookupCorrect_of_few inv fun ty => ?_
    cases ty with
    | memory => exact memory
    | reserved => exact reserved

theorem fourPages_lookups : LookupCorrect State.fourPages :=
  (lookupCorrect_iff State.fourPages_inv).mpr ⟨by decide, by decide⟩

/-! ## A large array -/

/-- `n` regions of one byte, with gaps of one byte between them. -/
def oddBytes (n : Nat) : List Region := (List.range n).map fun i => ⟨2 * i + 1, 1, Flags.none⟩

def MemblockType.odd (n : Nat) : MemblockType :=
  { regions := oddBytes n, max := n, totalSize := n, array := none, inSlab := false }

theorem total_oddBytes (n : Nat) : total (oddBytes n) = n := by
  induction n with
  | zero => rfl
  | succ n ih =>
      rw [oddBytes, List.range_succ, List.map_append, total_append]
      exact congrArg (· + 1) ih

theorem MemblockType.odd_inv {n : Nat} (pos : 0 < n) (small : n ≤ 2 ^ 40) : TypeInv (MemblockType.odd n) := by
  have length : (oddBytes n).length = n := by simp [oddBytes]
  refine ⟨?_, length.le, ?_, .inl ?_, ?_, (total_oddBytes n).symm⟩
  · change 1 ≤ (oddBytes n).length
    omega
  · change (oddBytes n).Pairwise _
    refine List.pairwise_map.mpr (List.pairwise_lt_range.imp ?_)
    intro i j lt
    simp only [stop]
    omega
  · intro r member
    obtain ⟨i, -, rfl⟩ := List.mem_map.mp member
    exact Nat.one_pos
  · intro r member
    obtain ⟨i, below, rfl⟩ := List.mem_map.mp member
    have lt := List.mem_range.mp below
    simp only [stop, physAddrMax]
    omega

def State.manyBytes (n : Nat) : State := { State.init with memory := MemblockType.odd n }

theorem State.manyBytes_inv {n : Nat} (pos : 0 < n) (small : n ≤ 2 ^ 40) : Inv (State.manyBytes n) := by
  intro ty
  cases ty with
  | memory => exact MemblockType.odd_inv pos small
  | reserved => exact State.fourPages_inv .reserved

theorem State.manyBytes_cnt (n : Nat) : (State.manyBytes n).memory.cnt = n := by
  change (oddBytes n).length = n
  simp [oddBytes]

/-- One region more than there are indices. -/
theorem manyBytes_lookups_fail : Inv (State.manyBytes (2 ^ 31 + 1)) ∧ ¬ LookupCorrect (State.manyBytes (2 ^ 31 + 1)) := by
  have inv : Inv (State.manyBytes (2 ^ 31 + 1)) := State.manyBytes_inv (by omega) (by omega)
  refine ⟨inv, fun correct => ?_⟩
  have few := @few_of_search _ .memory inv fun addr word => by
    obtain ⟨rounds, idx, read, run, -, -, index⟩ := correct.search .memory addr word
    exact ⟨rounds, idx, read, run, index⟩
  have cnt := State.manyBytes_cnt (2 ^ 31 + 1)
  change (State.manyBytes (2 ^ 31 + 1)).memory.cnt ≤ 2 ^ 31 at few
  omega

end Miracle.Memblock
