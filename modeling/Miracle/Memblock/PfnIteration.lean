import Miracle.Memblock.Attributes

/-! # Iterating over the page frames of memory

`for_each_mem_pfn_range` starts its `u64` index at `-1` and runs while the index is `>= 0`.
`__next_mem_pfn_range` leaves an index that is not below `cnt` at `ULLONG_MAX`, so the index
never reaches a region and the condition never fails.
-/

namespace Miracle.Memblock

open Extent

/-- `PFN_UP` -/
def pfnUp (x : Nat) : Nat := u64 (x + (pageSize - 1)) / pageSize

/-- `PFN_DOWN` -/
def pfnDown (x : Nat) : Nat := x / pageSize

/-- The loop variable and the two variables that the iterator writes. -/
structure PfnCursor where
  idx : Nat
  startPfn : Nat
  endPfn : Nat
  deriving DecidableEq, Repr

/-- `__next_mem_pfn_range` -/
def nextMemPfnRange (mb : State) (cursor : PfnCursor) : PfnCursor :=
  if cursor.idx < mb.memory.cnt then
    { idx := u64 (cursor.idx + 1)
      startPfn := pfnUp (mb.memory.rgn cursor.idx).base
      endPfn := pfnDown (mb.memory.rgn cursor.idx).limit }
  else { cursor with idx := ullongMax }

section

variable {σ : Type}

/-- The rounds of `for_each_mem_pfn_range` with the loop body `body`; `none` while it is still
    running. -/
def forEachLoop (mb : State) (body : PfnCursor → σ → σ) : Nat → PfnCursor → σ → Option σ
  | 0, _, _ => none
  | rounds + 1, cursor, acc =>
      -- the comparison `i >= 0` of an unsigned index
      if 0 ≤ cursor.idx then forEachLoop mb body rounds (nextMemPfnRange mb cursor) (body cursor acc)
      else some acc

/-- `for_each_mem_pfn_range`; `start` and `stop` are what the two variables hold before. -/
def forEachMemPfnRange (mb : State) (start stop : Nat) (body : PfnCursor → σ → σ) (rounds : Nat)
    (acc : σ) : Option σ :=
  forEachLoop mb body rounds (nextMemPfnRange mb ⟨ullongMax, start, stop⟩) acc

theorem nextMemPfnRange_end (mb : State) (start stop : Nat) (cnt : mb.memory.cnt < 2 ^ 64) :
    nextMemPfnRange mb ⟨ullongMax, start, stop⟩ = ⟨ullongMax, start, stop⟩ := by
  have behind : ¬ ullongMax < mb.memory.cnt := by
    simp only [ullongMax]
    omega
  rw [nextMemPfnRange, if_neg behind]

/-- The index stays at the end marker, in every round. -/
theorem forEachLoop_end (mb : State) (cnt : mb.memory.cnt < 2 ^ 64) (body : PfnCursor → σ → σ) (rounds start stop : Nat)
    (acc : σ) : forEachLoop mb body rounds ⟨ullongMax, start, stop⟩ acc = none := by
  induction rounds generalizing acc with
  | zero => rfl
  | succ rounds ih =>
      rw [forEachLoop, if_pos (Nat.zero_le _), nextMemPfnRange_end mb start stop cnt]
      exact ih _

theorem forEachMemPfnRange_runs (mb : State) (cnt : mb.memory.cnt < 2 ^ 64) (start stop : Nat) (body : PfnCursor → σ → σ)
    (rounds : Nat) (acc : σ) : forEachMemPfnRange mb start stop body rounds acc = none := by
  rw [forEachMemPfnRange, nextMemPfnRange_end mb start stop cnt]
  exact forEachLoop_end mb cnt body rounds start stop acc

end

/-! ## The functions that use the loop -/

/-- The pairs that the loop visits, in order. -/
def visitedPfns (mb : State) (start stop rounds : Nat) : Option (List (Nat × Nat)) :=
  forEachMemPfnRange mb start stop (fun cursor seen => seen ++ [(cursor.startPfn, cursor.endPfn)]) rounds []

/-- `find_min_pfn_for_node` -/
def findMinPfnForNode (mb : State) (start rounds : Nat) : Option Nat :=
  (forEachMemPfnRange mb start 0 (fun cursor minPfn => min minPfn cursor.startPfn) rounds ullongMax).map fun minPfn =>
    if minPfn = ullongMax then 0 else minPfn

/-- `get_pfn_range` -/
def getPfnRange (mb : State) (start stop rounds : Nat) : Option (Nat × Nat) :=
  (forEachMemPfnRange mb start stop (fun cursor range => (min range.1 cursor.startPfn, max range.2 cursor.endPfn))
    rounds (ullongMax, 0)).map fun range => if range.1 = ullongMax then (0, range.2) else range

/-- `__absent_pages_in_range` -/
def absentPagesInRange (mb : State) (rangeStartPfn rangeEndPfn start stop rounds : Nat) : Option Nat :=
  forEachMemPfnRange mb start stop (fun cursor nrAbsent =>
    u64Sub nrAbsent (u64Sub (clamp cursor.endPfn rangeStartPfn rangeEndPfn)
      (clamp cursor.startPfn rangeStartPfn rangeEndPfn))) rounds (u64Sub rangeEndPfn rangeStartPfn)

/-! ## What the loop is for -/

/-- All bytes of the page frame are memory. -/
def WholeFrame (mb : State) (pfn : Nat) : Prop :=
  ∀ a, pfn * pageSize ≤ a → a < (pfn + 1) * pageSize → mb.map .memory a ≠ none

/-- The whole page frames of a region, as a range. -/
def FramesOf (r : Region) (pfns : Nat × Nat) : Prop :=
  pfns.1 ≤ pfns.2 ∧ ∀ pfn, (pfns.1 ≤ pfn ∧ pfn < pfns.2) ↔ (r.base ≤ pfn * pageSize ∧ (pfn + 1) * pageSize ≤ r.stop)

/-- The loop ends and visits the frames of every region, in order. -/
def VisitsRegions (mb : State) (start stop : Nat) : Prop :=
  ∃ rounds visited, visitedPfns mb start stop rounds = some visited ∧ List.Forall₂ FramesOf mb.memory.regions visited

def FindsLeastFrame (mb : State) (start : Nat) : Prop :=
  ∃ rounds pfn, findMinPfnForNode mb start rounds = some pfn ∧
    ((∃ p, WholeFrame mb p) → WholeFrame mb pfn ∧ ∀ p, WholeFrame mb p → pfn ≤ p)

def FindsFrameRange (mb : State) (start stop : Nat) : Prop :=
  ∃ rounds first last, getPfnRange mb start stop rounds = some (first, last) ∧
    ((∃ p, WholeFrame mb p) → WholeFrame mb first ∧ WholeFrame mb (last - 1) ∧
      ∀ p, WholeFrame mb p → first ≤ p ∧ p < last)

def CountsAbsent (mb : State) (a b start stop : Nat) : Prop :=
  ∃ rounds absent, absentPagesInRange mb a b start stop rounds = some absent ∧
    absent = {p ∈ Set.Ico a b | ¬ WholeFrame mb p}.ncard

theorem TypeInv.cnt_lt {t : MemblockType} (inv : TypeInv t) : t.cnt < 2 ^ 64 := by
  obtain ⟨l, contents⟩ := inv.contents
  have sum := contents.sound.total_le
  have each : l.length ≤ total l := by
    have pos := contents.sound.ordered.pos
    clear sum contents
    induction l with
    | nil => exact Nat.zero_le _
    | cons r l ih =>
        have first := pos r (by simp)
        have rest := ih fun e member => pos e (by simp [member])
        rw [List.length_cons, total_cons]
        omega
  rw [contents.cnt_eq]
  simp only [physAddrMax] at sum
  omega

/-- No function that uses the loop returns, whatever its variables hold at the start. -/
theorem pfn_loops_never_return {mb : State} (inv : Inv mb) (start stop : Nat) :
    ¬ VisitsRegions mb start stop ∧ ¬ FindsLeastFrame mb start ∧ ¬ FindsFrameRange mb start stop ∧
      ∀ a b, ¬ CountsAbsent mb a b start stop := by
  have runs {σ : Type} := @forEachMemPfnRange_runs σ mb (inv .memory).cnt_lt
  refine ⟨?_, ?_, ?_, ?_⟩
  · rintro ⟨rounds, visited, done, -⟩
    rw [visitedPfns, runs] at done
    exact absurd done.symm (Option.some_ne_none visited)
  · rintro ⟨rounds, pfn, done, -⟩
    rw [findMinPfnForNode, runs] at done
    exact absurd done.symm (Option.some_ne_none pfn)
  · rintro ⟨rounds, first, last, done, -⟩
    rw [getPfnRange, runs] at done
    exact absurd done.symm (Option.some_ne_none (first, last))
  · rintro a b ⟨rounds, absent, done, -⟩
    rw [absentPagesInRange, runs] at done
    exact absurd done.symm (Option.some_ne_none absent)

theorem fourPages_never_returns : ¬ FindsFrameRange State.fourPages 0 0 :=
  (pfn_loops_never_return State.fourPages_inv 0 0).2.2.1

/-- With one bank of four pages the loop is still running after any number of rounds. -/
theorem fourPages_loop_runs :
    (∀ rounds, visitedPfns State.fourPages 0 0 rounds = none) ∧ ¬ VisitsRegions State.fourPages 0 0 ∧
      ¬ FindsLeastFrame State.fourPages 0 := by
  have runs {σ : Type} := @forEachMemPfnRange_runs σ State.fourPages (State.fourPages_inv .memory).cnt_lt
  refine ⟨fun rounds => runs _ _ _ _ _, ?_, ?_⟩
  · rintro ⟨rounds, visited, done, -⟩
    rw [visitedPfns, runs] at done
    exact absurd done.symm (Option.some_ne_none visited)
  · rintro ⟨rounds, pfn, done, -⟩
    rw [findMinPfnForNode, runs] at done
    exact absurd done.symm (Option.some_ne_none pfn)

/-! ## The memory below a frame

`memblock_mem_size` adds up the frames between the rounded ends of the regions.  A region inside one frame counts as
minus one frame, and the start of a region inside the last frame of the address space is rounded up to zero.
-/

/-- One round of the loop of `memblock_mem_size`. -/
def memSizeRound (limitPfn : BitVec 64) (pages : Nat) (r : Region) : Nat :=
  let startPfn := min (pfnUp r.base) limitPfn.toNat
  let endPfn := min (pfnDown r.limit) limitPfn.toNat
  u64 (pages + u64Sub endPfn startPfn)

/-- `memblock_mem_size`; the last step is `PFN_PHYS`. -/
def memblockMemSize (mb : State) (limitPfn : BitVec 64) : Nat :=
  u64 (mb.memory.regions.foldl (memSizeRound limitPfn) 0 * pageSize)

/-- The frame lies in the region. -/
def Region.Holds (r : Region) (p : Nat) : Prop := r.base ≤ p * pageSize ∧ (p + 1) * pageSize ≤ r.stop

/-- The frames below `n` that lie in one of the regions. -/
def framesBelow (l : List Region) (n : Nat) : Set Nat := {p | p < n ∧ ∃ r ∈ l, r.Holds p}

/-- The start of the region is in the last frame of the address space, and not at its start. -/
def Region.InLastFrame (r : Region) : Prop := 2 ^ 64 < r.base + pageSize

/-- The region is in one frame below `n` and touches neither end of it. -/
def Region.InFrame (n : Nat) (r : Region) : Prop :=
  ¬ r.InLastFrame ∧ pfnDown r.stop < pfnUp r.base ∧ pfnDown r.stop < n

instance (r : Region) : Decidable r.InLastFrame := inferInstanceAs (Decidable (_ < _))

instance (n : Nat) (r : Region) : Decidable (r.InFrame n) := inferInstanceAs (Decidable (_ ∧ _ ∧ _))

/-- The regions inside one frame make up for the ones that wrap. -/
def Balanced (l : List Region) (n : Nat) : Prop :=
  l.countP (·.InFrame n) ≡ l.countP (·.InLastFrame) * min (2 ^ 52 - 1) n [MOD 2 ^ 52]

/-! ## One region -/

section

variable {r : Region}

theorem holds_iff (low : ¬ r.InLastFrame) (p : Nat) : r.Holds p ↔ pfnUp r.base ≤ p ∧ p < pfnDown r.stop := by
  simp only [Region.InLastFrame, Region.Holds, stop, pageSize, pfnUp, pfnDown, u64] at *
  omega

/-- The difference of the two ends is one frame short at most. -/
theorem pfnUp_le (low : ¬ r.InLastFrame) : pfnUp r.base ≤ pfnDown r.stop + 1 := by
  simp only [Region.InLastFrame, stop, pageSize, pfnUp, pfnDown, u64] at *
  omega

variable (high : r.stop ≤ physAddrMax)

include high

theorem pfnUp_last (last : r.InLastFrame) : pfnUp r.base = 0 := by
  simp only [Region.InLastFrame, stop, physAddrMax, pageSize, pfnUp, u64] at *
  omega

theorem pfnDown_last (last : r.InLastFrame) : pfnDown r.stop = 2 ^ 52 - 1 := by
  simp only [Region.InLastFrame, stop, physAddrMax, pageSize, pfnDown] at *
  omega

theorem not_holds_last (last : r.InLastFrame) (p : Nat) : ¬ r.Holds p := by
  simp only [Region.InLastFrame, Region.Holds, stop, physAddrMax, pageSize] at *
  omega

theorem pfnDown_le : pfnDown r.stop ≤ 2 ^ 52 - 1 := by
  simp only [stop, physAddrMax, pageSize, pfnDown] at *
  omega

/-- What a round adds to the number of pages. -/
theorem memSizeRound_spec (limitPfn : BitVec 64) (pages : Nat) :
    memSizeRound limitPfn pages r + (if r.InFrame limitPfn.toNat then 1 else 0) ≡
      pages + {p | p < limitPfn.toNat ∧ r.Holds p}.ncard +
        (if r.InLastFrame then 1 else 0) * min (2 ^ 52 - 1) limitPfn.toNat [MOD 2 ^ 52] := by
  rw [memSizeRound, limit_of_le high]
  generalize limitPfn.toNat = n
  by_cases last : r.InLastFrame
  · have none : {p | p < n ∧ r.Holds p} = ∅ := by
      rw [Set.eq_empty_iff_forall_notMem]
      exact fun p member => not_holds_last high last p member.2
    rw [none, Set.ncard_empty, if_neg (fun inside => inside.1 last), if_pos last, pfnUp_last high last,
      pfnDown_last high last, Nat.zero_min]
    simp only [Nat.ModEq, u64, u64Sub]
    omega
  · have frames : {p | p < n ∧ r.Holds p} = Finset.Ico (pfnUp r.base) (min (pfnDown r.stop) n) := by
      ext p
      simp only [Set.mem_ofPred_eq, holds_iff last, Finset.coe_Ico, Set.mem_Ico, lt_min_iff]
      omega
    have count : {p | p < n ∧ r.Holds p}.ncard = min (pfnDown r.stop) n - pfnUp r.base := by
      rw [frames, Set.ncard_coe_finset, Nat.card_Ico]
    have short := pfnUp_le last
    have word := pfnDown_le high
    rw [count, if_neg last]
    simp only [Region.InFrame, last, not_false_eq_true, true_and]
    generalize pfnUp r.base = up at *
    generalize pfnDown r.stop = down at *
    simp only [Nat.ModEq, u64, u64Sub]
    split
    · omega
    · omega

end

/-! ## All regions -/

theorem framesBelow_cons (r : Region) (l : List Region) (n : Nat) :
    framesBelow (r :: l) n = {p | p < n ∧ r.Holds p} ∪ framesBelow l n := by
  ext p
  simp only [framesBelow, List.exists_mem_cons_iff, Set.mem_union, Set.mem_ofPred_eq]
  tauto

theorem framesBelow_finite (l : List Region) (n : Nat) : (framesBelow l n).Finite :=
  (Set.finite_Iio n).subset fun _ member => member.1

/-- The loop adds up the frames, up to the regions that it takes for minus one frame or for all. -/
theorem foldl_memSizeRound (limitPfn : BitVec 64) {l : List Region} (bounded : Bounded l)
    (apart : l.Pairwise fun x y => x.stop ≤ y.base) (pages : Nat) :
    l.foldl (memSizeRound limitPfn) pages + l.countP (·.InFrame limitPfn.toNat) ≡
      pages + (framesBelow l limitPfn.toNat).ncard +
        l.countP (·.InLastFrame) * min (2 ^ 52 - 1) limitPfn.toNat [MOD 2 ^ 52] := by
  induction l generalizing pages with
  | nil =>
      have none : framesBelow [] limitPfn.toNat = ∅ := by simp [framesBelow]
      rw [none, Set.ncard_empty, List.countP_nil, List.countP_nil, Nat.zero_mul]
      exact Nat.ModEq.refl _
  | cons r l ih =>
      obtain ⟨high, bounded⟩ := Bounded.cons_iff.mp bounded
      obtain ⟨after, apart⟩ := List.pairwise_cons.mp apart
      have round := memSizeRound_spec high limitPfn pages
      have rest := ih bounded apart (memSizeRound limitPfn pages r)
      -- a frame of this region is in no later one
      have disjoint : Disjoint {p | p < limitPfn.toNat ∧ r.Holds p} (framesBelow l limitPfn.toNat) := by
        rw [Set.disjoint_left]
        rintro p ⟨-, -, below⟩ ⟨-, y, member, above, -⟩
        have := after y member
        simp only [pageSize] at below above
        omega
      have count : (framesBelow (r :: l) limitPfn.toNat).ncard =
          {p | p < limitPfn.toNat ∧ r.Holds p}.ncard + (framesBelow l limitPfn.toNat).ncard := by
        rw [framesBelow_cons]
        exact Set.ncard_union_eq disjoint ((Set.finite_Iio _).subset fun _ member => member.1) (framesBelow_finite _ _)
      rw [List.foldl_cons, count, List.countP_cons, List.countP_cons, Nat.add_mul]
      simp only [decide_eq_true_eq]
      apply Nat.ModEq.add_left_cancel' (memSizeRound limitPfn pages r)
      convert rest.add round using 1
      · ring
      · ring

/-! ## The result -/

theorem framesBelow_lt {l : List Region} (bounded : Bounded l) (n : Nat) : (framesBelow l n).ncard < 2 ^ 52 := by
  have within : framesBelow l n ⊆ Finset.range (2 ^ 52 - 1) := by
    rintro p ⟨-, r, member, -, below⟩
    have high := bounded r member
    simp only [pageSize, physAddrMax] at below high
    simp only [Finset.coe_range, Set.mem_Iio]
    omega
  have le := Set.ncard_le_ncard within (Finset.finite_toSet _)
  rw [Set.ncard_coe_finset, Finset.card_range] at le
  exact le.trans_lt (by decide)

/-- `memblock_mem_size` counts the whole frames if and only if its errors make up for each other. -/
theorem mem_size_iff {mb : State} (inv : Inv mb) (limitPfn : BitVec 64) :
    memblockMemSize mb limitPfn = pageSize * (framesBelow mb.memory.regions limitPfn.toNat).ncard ↔
      Balanced mb.memory.regions limitPfn.toNat := by
  have memory : TypeInv mb.memory := inv .memory
  have sum := foldl_memSizeRound limitPfn memory.bounded memory.apart 0
  have small := framesBelow_lt memory.bounded limitPfn.toNat
  rw [memblockMemSize, Balanced]
  generalize mb.memory.regions.foldl (memSizeRound limitPfn) 0 = pages at *
  generalize (framesBelow mb.memory.regions limitPfn.toNat).ncard = count at *
  rw [Nat.zero_add] at sum
  have exact' : u64 (pages * pageSize) = pageSize * count ↔ pages ≡ count [MOD 2 ^ 52] := by
    simp only [u64, pageSize, Nat.ModEq]
    omega
  rw [exact']
  constructor
  · exact fun same => same.add_left_cancel sum
  · exact fun balanced => balanced.add_right_cancel sum

/-! ## Regions inside a frame -/

theorem fourPages_mem_size : memblockMemSize State.fourPages 6 = pageSize * (framesBelow State.fourPages.memory.regions 6).ncard := by
  apply (mem_size_iff State.fourPages_inv 6).mpr
  exact Nat.ModEq.refl 0

/-- One region of sixteen bytes in the middle of a page. -/
def State.sixteenBytes : State :=
  { State.init with
    memory := { MemblockType.init with regions := [⟨0x1010, 0x10, Flags.none⟩], totalSize := 0x10 } }

theorem State.sixteenBytes_inv : Inv State.sixteenBytes := by
  intro ty
  cases ty with
  | memory =>
      refine ⟨by decide, by decide, List.pairwise_singleton _ _, .inl (by decide), ?_, by decide⟩
      intro r member
      rw [List.mem_singleton.mp member]
      decide
  | reserved => exact State.fourPages_inv .reserved

/-- Sixteen bytes count as all of the address space but one page. -/
theorem sixteenBytes_mem_size : Inv State.sixteenBytes ∧
    memblockMemSize State.sixteenBytes 16 ≠ pageSize * (framesBelow State.sixteenBytes.memory.regions 16).ncard := by
  have size : memblockMemSize State.sixteenBytes 16 = 2 ^ 64 - pageSize := by decide +kernel
  have none : framesBelow State.sixteenBytes.memory.regions 16 = ∅ := by
    rw [Set.eq_empty_iff_forall_notMem]
    rintro p ⟨-, r, member, above, below⟩
    rw [List.mem_singleton.mp member] at above below
    simp only [pageSize, stop] at above below
    omega
  refine ⟨State.sixteenBytes_inv, ?_⟩
  rw [size, none, Set.ncard_empty]
  decide

end Miracle.Memblock
