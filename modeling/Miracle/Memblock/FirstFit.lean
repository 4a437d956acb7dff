import Miracle.Memblock.FreeRanges

/-! # The search finds the best block

Both searches return at the first range that has room.  The walk upwards meets the lowest block first and the walk
downwards the highest one, so that the first is also the best of all.
-/

namespace Miracle.Memblock

open Extent Meet

/-! ## Rounding -/

section

variable {x k : Nat}

theorem u64Sub_pow (small : k < 64) : u64Sub (2 ^ k) 1 = 2 ^ k - 1 :=
  u64Sub_of_le (Nat.pow_lt_pow_right (by decide) small) Nat.one_le_two_pow

theorem roundDown_eq (word : x < 2 ^ 64) (small : k < 64) : roundDown x (2 ^ k) = x / 2 ^ k * 2 ^ k := by
  have mask : physAddrMax - (2 ^ k - 1) = 2 ^ 64 - 2 ^ k := by
    have pos := Nat.two_pow_pos k
    simp only [physAddrMax]
    omega
  rw [roundDown, u64Sub_pow small, mask, and_highMask word small.le]

theorem roundDown_dvd (word : x < 2 ^ 64) (small : k < 64) : 2 ^ k ∣ roundDown x (2 ^ k) := by
  rw [roundDown_eq word small]
  exact Dvd.intro_left _ rfl

/-- No multiple lies between the rounded address and the address. -/
theorem le_roundDown (word : x < 2 ^ 64) (small : k < 64) {d : Nat} (aligned : 2 ^ k ∣ d) (le : d ≤ x) :
    d ≤ roundDown x (2 ^ k) := by
  obtain ⟨q, rfl⟩ := aligned
  rw [roundDown_eq word small, Nat.mul_comm]
  apply Nat.mul_le_mul_right
  rw [Nat.le_div_iff_mul_le (Nat.two_pow_pos k), Nat.mul_comm]
  exact le

theorem roundUp_eq (pos : 0 < x) (word : x < 2 ^ 64) (small : k < 64) :
    roundUp x (2 ^ k) = u64 (((x - 1) / 2 ^ k + 1) * 2 ^ k) := by
  have one : u64Sub x 1 = x - 1 := u64Sub_of_le word pos
  have unit := Nat.two_pow_pos k
  rw [roundUp, one, u64Sub_pow small, or_lowMask, Nat.add_assoc, Nat.sub_add_cancel unit, Nat.add_one_mul]

theorem roundUp_dvd (pos : 0 < x) (word : x < 2 ^ 64) (small : k < 64) : 2 ^ k ∣ roundUp x (2 ^ k) := by
  rw [roundUp_eq pos word small, u64, Nat.dvd_mod_iff (pow_dvd_pow 2 small.le)]
  exact Dvd.intro_left _ rfl

/-- The rounding does not wrap if there is a multiple above, and it is not above that one. -/
theorem roundUp_le (pos : 0 < x) (word : x < 2 ^ 64) (small : k < 64) {d : Nat} (aligned : 2 ^ k ∣ d) (le : x ≤ d)
    (top : d < 2 ^ 64) : x ≤ roundUp x (2 ^ k) ∧ roundUp x (2 ^ k) ≤ d := by
  obtain ⟨q, rfl⟩ := aligned
  have below : (x - 1) / 2 ^ k < q := by
    rw [Nat.div_lt_iff_lt_mul (Nat.two_pow_pos k), Nat.mul_comm]
    omega
  have high : ((x - 1) / 2 ^ k + 1) * 2 ^ k ≤ 2 ^ k * q := by
    rw [Nat.mul_comm (2 ^ k)]
    exact Nat.mul_le_mul_right _ below
  have low : x - 1 < ((x - 1) / 2 ^ k + 1) * 2 ^ k := 
    Nat.lt_mul_of_div_lt (Nat.lt_succ_self _) (Nat.two_pow_pos k)
  rw [roundUp_eq pos word small, u64_of_lt (by omega)]
  omega

end

/-! ## First fit -/

/-- The block at `c` has the alignment, lies in the window and in the range `p`. -/
structure Fits (size align start end_ : Nat) (p : Nat × Nat) (c : Nat) : Prop where
  aligned : align ∣ c
  low : start ≤ c
  high : c + size ≤ end_
  left : p.1 ≤ c
  right : c + size ≤ p.2

section

variable {ok : Nat × Nat → Nat → Prop} {beats : Nat → Nat → Prop} {after : Nat × Nat → Nat → Prop}
  {fit : Nat × Nat → Option Nat}

/-- A search that stops at the first range with a block.  `after p` holds of the blocks that the walk can still meet
    at `p`; what is accepted there has to beat all of these. -/
theorem findSome_best {l : List (Nat × Nat)} (later : l.Pairwise fun p q => ∀ d, ok q d → after p d)
    (own : ∀ p ∈ l, ∀ d, ok p d → after p d)
    (hit : ∀ p ∈ l, ∀ c, fit p = some c → (c = 0 ∨ ok p c) ∧ ∀ q d, ok q d → after p d → c ≠ 0 ∧ beats c d)
    (miss : ∀ p ∈ l, fit p = none → ∀ d, ¬ ok p d) :
    ((l.findSome? fit).getD 0 = 0 ∨ ∃ p ∈ l, ok p ((l.findSome? fit).getD 0)) ∧
      ∀ p ∈ l, ∀ d, ok p d → (l.findSome? fit).getD 0 ≠ 0 ∧ beats ((l.findSome? fit).getD 0) d := by
  induction l with
  | nil => exact ⟨.inl rfl, fun p member => absurd member List.not_mem_nil⟩
  | cons p l ih =>
      obtain ⟨before, later⟩ := List.pairwise_cons.mp later
      rw [List.findSome?_cons]
      cases found : fit p with
      | some c =>
          obtain ⟨good, best⟩ := hit p List.mem_cons_self c found
          refine ⟨good.imp_right fun good => ⟨p, List.mem_cons_self, good⟩, ?_⟩
          intro q member d okay
          apply best q d okay
          rcases List.mem_cons.mp member with rfl | tail
          · exact own q List.mem_cons_self d okay
          · exact before q tail d okay
      | none =>
          obtain ⟨good, best⟩ := ih later (fun q tail => own q (List.mem_cons_of_mem p tail))
            (fun q tail => hit q (List.mem_cons_of_mem p tail)) (fun q tail => miss q (List.mem_cons_of_mem p tail))
          constructor
          · apply good.imp_right
            rintro ⟨q, tail, okay⟩
            exact ⟨q, List.mem_cons_of_mem p tail, okay⟩
          · intro q member d okay
            rcases List.mem_cons.mp member with rfl | tail
            · exact absurd okay (miss q List.mem_cons_self found d)
            · exact best q tail d okay

end

section

variable {size k start end_ : Nat} (pos : 0 < size) (small : k < 64) (low : 0 < start) (window : start ≤ end_)
  (top : end_ < 2 ^ 64)

include pos small low window top

/-- The highest block of a range, or none if it has no room. -/
theorem fitTopDown_spec (p : Nat × Nat) :
    (∀ c, fitTopDown start end_ size (2 ^ k) ⟨0, p.1, p.2⟩ = some c →
      Fits size (2 ^ k) start end_ p c ∧
        ∀ q d, Fits size (2 ^ k) start end_ q d → d + size ≤ p.2 → c ≠ 0 ∧ d ≤ c) ∧
      (fitTopDown start end_ size (2 ^ k) ⟨0, p.1, p.2⟩ = none → ∀ d, ¬ Fits size (2 ^ k) start end_ p d) := by
  have word : clamp p.2 start end_ - size < 2 ^ 64 := by
    simp only [clamp]
    omega
  have down := roundDown_le (clamp p.2 start end_ - size) (2 ^ k)
  unfold fitTopDown
  simp only
  split
  · rename_i short
    refine ⟨by simp, ?_⟩
    intro _ d fits
    obtain ⟨-, low, high, -, right⟩ := fits
    simp only [clamp] at short
    omega
  · rename_i long
    split
    · rename_i room
      refine ⟨?_, by simp⟩
      rintro c ⟨rfl⟩
      constructor
      · refine ⟨roundDown_dvd word small, ?_, ?_, ?_, ?_⟩
        all_goals simp only [clamp] at *; omega
      · intro q d fits right
        have below : d ≤ roundDown (clamp p.2 start end_ - size) (2 ^ k) := by
          apply le_roundDown word small fits.aligned
          have high := fits.high
          simp only [clamp]
          omega
        have above := fits.low
        exact ⟨by omega, below⟩
    · rename_i full
      refine ⟨by simp, ?_⟩
      intro _ d fits
      have below : d ≤ roundDown (clamp p.2 start end_ - size) (2 ^ k) := by
        apply le_roundDown word small fits.aligned
        have high := fits.high
        have right := fits.right
        simp only [clamp]
        omega
      have left := fits.left
      have above := fits.low
      simp only [clamp] at full
      simp only [clamp] at below
      omega

/-- The lowest block of a range.  A rounding that wraps to zero ends the search, with no block above. -/
theorem fitBottomUp_spec (p : Nat × Nat) :
    (∀ c, fitBottomUp start end_ size (2 ^ k) ⟨0, p.1, p.2⟩ = some c →
      (c = 0 ∨ Fits size (2 ^ k) start end_ p c) ∧
        ∀ q d, Fits size (2 ^ k) start end_ q d → p.1 ≤ d → c ≠ 0 ∧ c ≤ d) ∧
      (fitBottomUp start end_ size (2 ^ k) ⟨0, p.1, p.2⟩ = none → ∀ d, ¬ Fits size (2 ^ k) start end_ p d) := by
  have positive : 0 < clamp p.1 start end_ := by
    simp only [clamp]
    omega
  have word : clamp p.1 start end_ < 2 ^ 64 := by
    simp only [clamp]
    omega
  -- a block from the range on is not below the rounded start of the range
  have least {d : Nat} (aligned : 2 ^ k ∣ d) (low : start ≤ d) (high : d + size ≤ end_) (left : p.1 ≤ d) :
      clamp p.1 start end_ ≤ roundUp (clamp p.1 start end_) (2 ^ k) ∧
        roundUp (clamp p.1 start end_) (2 ^ k) ≤ d := by
    apply roundUp_le positive word small aligned
    · simp only [clamp]
      omega
    · omega
  unfold fitBottomUp
  simp only
  split
  · rename_i room
    refine ⟨?_, by simp⟩
    rintro c ⟨rfl⟩
    constructor
    · rcases le_roundUp positive word (2 ^ k) with wraps | up
      · exact .inl wraps
      · right
        refine ⟨roundUp_dvd positive word small, ?_, ?_, ?_, ?_⟩
        all_goals simp only [clamp] at *; omega
    · intro q d fits left
      obtain ⟨above, below⟩ := least fits.aligned fits.low fits.high left
      exact ⟨by omega, below⟩
  · rename_i full
    refine ⟨by simp, ?_⟩
    intro _ d fits
    obtain ⟨-, below⟩ := least fits.aligned fits.low fits.high fits.left
    have high := fits.high
    have right := fits.right
    have reach : d + size ≤ clamp p.2 start end_ := by
      simp only [clamp]
      omega
    exact full ⟨by omega, by omega⟩

end

/-! ## The searches -/

section

variable {mb : State} (inv : Inv mb) (indexed : Indexed mb) {flags : Flags} (mapped : flags &&& Flags.nomap = 0)
  {size k start end_ : Nat} (pos : 0 < size) (small : k < 64) (low : 0 < start) (window : start ≤ end_)
  (top : end_ < 2 ^ 64)

include inv indexed mapped pos small low window top

theorem findRangeTopDown_best {r : Nat} (result : memblockFindRangeTopDown mb start end_ size (2 ^ k) flags = r) :
    (r = 0 ∨ ∃ p ∈ freeRanges mb flags, Fits size (2 ^ k) start end_ p r) ∧
      ∀ p ∈ freeRanges mb flags, ∀ d, Fits size (2 ^ k) start end_ p d → r ≠ 0 ∧ d ≤ r := by
  have yields := freeRanges_yields_reverse inv indexed flags
  have short := (freeRanges_spec inv indexed flags).2
  have search : memblockFindRangeTopDown mb start end_ size (2 ^ k) flags = _ :=
    yields.findLoop (fun _ => rfl) (by rwa [List.length_reverse])
  rw [search] at result
  subst result
  have best := @findSome_best (Fits size (2 ^ k) start end_) (fun c d => d ≤ c) (fun p d => d + size ≤ p.2)
    (fun p => fitTopDown start end_ size (2 ^ k) ⟨0, p.1, p.2⟩) (freeRanges mb flags).reverse ?_ ?_ ?_ ?_
  · simpa only [List.mem_reverse] using best
  · rw [List.pairwise_reverse]
    apply (freeRanges_sorted inv).imp_of_mem
    intro p q _ member before d fits
    have le := freeRanges_le inv mapped member
    have right := fits.right
    omega
  · intro p _ d fits
    exact fits.right
  · intro p _ c found
    obtain ⟨fits, best⟩ := (fitTopDown_spec pos small low window top p).1 c found
    exact ⟨.inr fits, best⟩
  · intro p _ missed
    exact (fitTopDown_spec pos small low window top p).2 missed

theorem findRangeBottomUp_best {r : Nat} (result : memblockFindRangeBottomUp mb start end_ size (2 ^ k) flags = r) :
    (r = 0 ∨ ∃ p ∈ freeRanges mb flags, Fits size (2 ^ k) start end_ p r) ∧
      ∀ p ∈ freeRanges mb flags, ∀ d, Fits size (2 ^ k) start end_ p d → r ≠ 0 ∧ r ≤ d := by
  obtain ⟨yields, short⟩ := freeRanges_spec inv indexed flags
  have search : memblockFindRangeBottomUp mb start end_ size (2 ^ k) flags = _ :=
    yields.findLoop (fun _ => rfl) short
  rw [search] at result
  subst result
  apply @findSome_best (Fits size (2 ^ k) start end_) (fun c d => c ≤ d) (fun p d => p.1 ≤ d)
    (fun p => fitBottomUp start end_ size (2 ^ k) ⟨0, p.1, p.2⟩)
  · apply (freeRanges_sorted inv).imp_of_mem
    intro p q member _ before d fits
    have le := freeRanges_le inv mapped member
    have left := fits.left
    omega
  · intro p _ d fits
    exact fits.left
  · intro p _ c found
    exact (fitBottomUp_spec pos small low window top p).1 c found
  · intro p _ missed
    exact (fitBottomUp_spec pos small low window top p).2 missed

end

/-! ## The best block of all -/

/-- The end of the search: `MEMBLOCK_ALLOC_ACCESSIBLE` stands for the current limit. -/
def effectiveEnd (mb : State) (end_ : Nat) : Nat := if end_ = 0 then mb.currentLimit.toNat else end_

/-- An aligned block above the first page, in the window, in one region of mapped memory and not reserved. -/
structure Candidate (mb : State) (size align start end_ a : Nat) : Prop where
  aligned : align ∣ a
  low : max start pageSize ≤ a
  high : a + size ≤ effectiveEnd mb end_
  region : InRegion mb (a, a + size)
  free : ∀ x, a ≤ x → x < a + size → mb.map .reserved x = none

theorem rgn_unique {t : MemblockType} (inv : TypeInv t) {i j x : Nat} (hi : i < t.cnt) (hj : j < t.cnt)
    (inI : (t.rgn i).Contains x) (inJ : (t.rgn j).Contains x) : i = j := by
  rcases Nat.lt_trichotomy i j with before | same | behind
  · have sorted := rgn_sorted inv before hj
    have high := inI.2
    have low := inJ.1
    omega
  · exact same
  · have sorted := rgn_sorted inv behind hi
    have high := inJ.2
    have low := inI.1
    omega

section

variable {mb : State} (inv : Inv mb) {flags : Flags} (mapped : flags &&& Flags.nomap = 0) {size : Nat} (pos : 0 < size)

include inv mapped pos

/-- A block in one region that is not reserved lies in one range of the walks. -/
theorem exists_range {a : Nat} :
    (∃ p ∈ freeRanges mb flags, p.1 ≤ a ∧ a + size ≤ p.2) ↔
      InRegion mb (a, a + size) ∧ ∀ x, a ≤ x → x < a + size → mb.map .reserved x = none := by
  constructor
  · rintro ⟨p, member, left, right⟩
    obtain ⟨m, inside, usable, low, high⟩ := freeRanges_inRegion inv mapped member
    refine ⟨⟨m, inside, usable, low.trans left, right.trans high⟩, ?_⟩
    intro x above below
    have covered : ∃ p ∈ freeRanges mb flags, p.1 ≤ x ∧ x < p.2 := ⟨p, member, by omega, by omega⟩
    exact ((mem_freeRanges_iff inv mapped).mp covered).2
  · rintro ⟨⟨m, inside, usable, low, high⟩, free⟩
    simp only at low high
    obtain ⟨i, lt, rfl⟩ := exists_rgn inside
    obtain ⟨l, contents⟩ := (inv .memory).contents
    have start : (mb.memory.rgn i).Contains a := ⟨low, by omega⟩
    have isFree : mb.IsFree a :=
      ⟨⟨_, lookup_rgn contents lt start, isNomap_eq_false.mp usable⟩, free a le_rfl (by omega)⟩
    obtain ⟨p, member, left, right⟩ := (mem_freeRanges_iff inv mapped).mpr isFree
    refine ⟨p, member, left, ?_⟩
    obtain ⟨i', lt', j, le, -, -, -, rfl⟩ := freeRanges_meet inv mapped member
    simp only at left right ⊢
    -- the range is cut from the same region
    have same : i = i' := rgn_unique (inv .memory) lt lt' start ⟨by change (mb.memory.rgn i').base ≤ a; omega,
      by change a < (mb.memory.rgn i').stop; omega⟩
    subst same
    have stops : a + size ≤ (mb.memory.rgn i).stop := high
    -- and no reservation begins inside the block
    by_contra cut
    have ends : gapEnd mb.reserved j < a + size := by omega
    rcases Nat.lt_or_eq_of_le le with inner | last
    · rw [gapEnd_of_lt inner] at ends right
      have reserved := lookup_eq_none_iff.mp (free (mb.reserved.rgn j).base (by omega) ends) _ (rgn_mem inner)
      have above : 0 < (mb.reserved.rgn j).stop := by
        have base : (mb.reserved.rgn j).base ≤ (mb.reserved.rgn j).stop := Nat.le_add_right _ _
        omega
      exact reserved ⟨le_rfl, Nat.lt_add_of_pos_right ((inv .reserved).size_pos inner above)⟩
    · have bound : (mb.memory.rgn i).stop ≤ physAddrMax := (inv .memory).bounded _ (rgn_mem lt)
      rw [last, gapEnd_last] at ends
      omega

end

section

variable {mb : State} (inv : Inv mb) {size align start end_ : Nat} (pos : 0 < size)

include inv pos

theorem candidate_iff {a : Nat} :
    Candidate mb size align start end_ a ↔
      ∃ p ∈ freeRanges mb Flags.none,
        Fits size align (max start pageSize) (max (max start pageSize) (effectiveEnd mb end_)) p a := by
  have range := exists_range inv (by decide : Flags.none &&& Flags.nomap = 0) pos (a := a)
  constructor
  · intro candidate
    obtain ⟨p, member, left, right⟩ := range.mpr ⟨candidate.region, candidate.free⟩
    exact ⟨p, member, candidate.aligned, candidate.low, candidate.high.trans (le_max_right _ _), left, right⟩
  · rintro ⟨p, member, fits⟩
    obtain ⟨region, free⟩ := range.mp ⟨p, member, fits.left, fits.right⟩
    have low := fits.low
    have high := fits.high
    exact ⟨fits.aligned, low, by omega, region, free⟩

end

section

variable (env : Env) {mb : State} (inv : Inv mb) (indexed : Indexed mb) {size k start end_ : Nat} (pos : 0 < size)
  (small : k < 64) (low : start ≤ physAddrMax) (high : end_ ≤ physAddrMax)

include inv indexed pos small low high

/-- The result comes from the search downwards or from one upwards that succeeded. -/
theorem findInRange_cases {a : Nat} (result : memblockFindInRange' env mb size (2 ^ k) start end_ Flags.none = a) :
    ((a = 0 ∨ Candidate mb size (2 ^ k) start end_ a) ∧
      (∀ c, Candidate mb size (2 ^ k) start end_ c → a ≠ 0 ∧ c ≤ a) ∧
      (mb.bottomUp ∧ env.kernelEnd < effectiveEnd mb end_ →
        ∀ c, Candidate mb size (2 ^ k) start end_ c → c < env.kernelEnd)) ∨
    (mb.bottomUp ∧ Candidate mb size (2 ^ k) start end_ a ∧ env.kernelEnd ≤ a ∧
      ∀ c, Candidate mb size (2 ^ k) start end_ c → env.kernelEnd ≤ c → a ≤ c) := by
  have mapped : Flags.none &&& Flags.nomap = 0 := by decide
  have candidates {c : Nat} := @candidate_iff mb inv size (2 ^ k) start end_ pos c
  have first : 0 < max start pageSize := lt_of_lt_of_le (by decide) (le_max_right start pageSize)
  have top : max (max start pageSize) (effectiveEnd mb end_) < 2 ^ 64 := by
    have limit := mb.currentLimit.isLt
    simp only [physAddrMax, effectiveEnd, pageSize] at *
    split
    · omega
    · omega
  have down := @findRangeTopDown_best mb inv indexed Flags.none mapped size k (max start pageSize) _ pos small first
    (le_max_left _ (effectiveEnd mb end_)) top
  rw [memblockFindInRange', ← effectiveEnd] at result
  simp only at result
  split at result
  · rename_i up
    obtain ⟨up, above⟩ := up
    have best := @findRangeBottomUp_best mb inv indexed Flags.none mapped size k (max (max start pageSize) env.kernelEnd)
      _ pos small (lt_of_lt_of_le first (le_max_left _ _)) (max_le (le_max_left _ _) above.le) top
    split at result
    · rename_i hit
      right
      obtain ⟨good, least⟩ := best result
      rw [result] at hit
      obtain ⟨p, member, fits⟩ := good.resolve_left hit
      have low := fits.low
      refine ⟨up, candidates.mpr ⟨p, member, ?_⟩, by omega, ?_⟩
      · exact ⟨fits.aligned, by omega, fits.high, fits.left, fits.right⟩
      · intro c candidate beyond
        obtain ⟨q, member, fits⟩ := candidates.mp candidate
        have low := fits.low
        exact (least q member c ⟨fits.aligned, by omega, fits.high, fits.left, fits.right⟩).2
    · rename_i miss
      left
      obtain ⟨good, highest⟩ := down result
      refine ⟨good.imp_right candidates.mpr, ?_, ?_⟩
      · intro c candidate
        obtain ⟨q, member, fits⟩ := candidates.mp candidate
        exact highest q member c fits
      · intro _ c candidate
        obtain ⟨q, member, fits⟩ := candidates.mp candidate
        have low := fits.low
        by_contra beyond
        exact miss ((best rfl).2 q member c ⟨fits.aligned, by omega, fits.high, fits.left, fits.right⟩).1
  · rename_i off
    left
    obtain ⟨good, highest⟩ := down result
    refine ⟨good.imp_right candidates.mpr, ?_, ?_⟩
    · intro c candidate
      obtain ⟨q, member, fits⟩ := candidates.mp candidate
      exact highest q member c fits
    · rintro ⟨up, above⟩
      exact absurd ⟨up, lt_of_lt_of_le above (le_max_right _ _)⟩ off

/-- The search finds a block if there is one, the highest one or, searching upwards, the lowest one above the kernel. -/
theorem find_in_range_best {a : Nat}
    (result : memblockFindInRange' env mb size (2 ^ k) start end_ Flags.none = a) :
    (a ≠ 0 ↔ ∃ c, Candidate mb size (2 ^ k) start end_ c) ∧
      (a ≠ 0 → Candidate mb size (2 ^ k) start end_ a) ∧
      (¬ (mb.bottomUp ∧ env.kernelEnd < effectiveEnd mb end_) →
        ∀ c, Candidate mb size (2 ^ k) start end_ c → c ≤ a) ∧
      (mb.bottomUp ∧ env.kernelEnd < effectiveEnd mb end_ →
        (∀ c, Candidate mb size (2 ^ k) start end_ c → env.kernelEnd ≤ c → env.kernelEnd ≤ a ∧ a ≤ c) ∧
          ((∀ c, Candidate mb size (2 ^ k) start end_ c → c < env.kernelEnd) →
            ∀ c, Candidate mb size (2 ^ k) start end_ c → c ≤ a)) := by
  rcases findInRange_cases env inv indexed pos small low high result with
    ⟨good, highest, below⟩ | ⟨up, good, above, least⟩
  · refine ⟨⟨fun found => ⟨a, good.resolve_left found⟩, ?_⟩, good.resolve_left, ?_, ?_⟩
    · rintro ⟨c, candidate⟩
      exact (highest c candidate).1
    · intro _ c candidate
      exact (highest c candidate).2
    · intro upwards
      refine ⟨?_, fun _ c candidate => (highest c candidate).2⟩
      intro c candidate beyond
      exact absurd (below upwards c candidate) (Nat.not_lt.mpr beyond)
  · have positive : a ≠ 0 := by
      have low := good.low
      simp only [pageSize] at low
      omega
    refine ⟨iff_of_true positive ⟨a, good⟩, fun _ => good, ?_, ?_⟩
    · intro off
      have high := good.high
      exact absurd ⟨up, by omega⟩ off
    · intro _
      refine ⟨fun c candidate beyond => ⟨above, least c candidate beyond⟩, ?_⟩
      intro none
      exact absurd (none a good) (Nat.not_lt.mpr above)

end

/-- The page at the top of four pages. -/
theorem fourPages_find :
    memblockFindInRange' Env.early State.fourPages 0x1000 (2 ^ 12) 0 0 Flags.none = 0x7000 ∧
      Candidate State.fourPages 0x1000 (2 ^ 12) 0 0 0x7000 := by
  have found : memblockFindInRange' Env.early State.fourPages 0x1000 (2 ^ 12) 0 0 Flags.none = 0x7000 := by
    decide +kernel
  have best := find_in_range_best Env.early State.fourPages_inv ⟨by decide, by decide⟩ (by decide : 0 < 0x1000)
    (by decide : 12 < 64) (Nat.zero_le _) (Nat.zero_le _) found
  exact ⟨found, best.2.1 (by decide)⟩

theorem findInRange_of_none (env : Env) {mb : State} (down : mb.bottomUp = false)
    (none : nextFreeRev mb Flags.none ullongMax = none) {size align start end_ : Nat} :
    memblockFindInRange' env mb size align start end_ Flags.none = 0 := by
  simp only [memblockFindInRange', down, Bool.false_eq_true, false_and, if_false]
  change findLoop _ _ _ (nextFreeRev mb Flags.none ullongMax) = 0
  rw [none]
  rfl

/-- With more regions than indices the search misses every block. -/
theorem manyBytes_find_fails :
    Inv (State.manyBytes (2 ^ 31 + 1)) ∧ Candidate (State.manyBytes (2 ^ 31 + 1)) 1 (2 ^ 0) 0 0 0x1001 ∧
      memblockFindInRange' Env.early (State.manyBytes (2 ^ 31 + 1)) 1 (2 ^ 0) 0 0 Flags.none = 0 := by
  have inv : Inv (State.manyBytes (2 ^ 31 + 1)) := State.manyBytes_inv (by omega) (by omega)
  refine ⟨inv, ⟨one_dvd _, by decide, by decide, ?_, ?_⟩, ?_⟩
  · have byte : (State.manyBytes (2 ^ 31 + 1)).memory.rgn 0x800 = ⟨0x1001, 1, Flags.none⟩ :=
      State.manyBytes_rgn (by omega)
    have lt : 0x800 < (State.manyBytes (2 ^ 31 + 1)).memory.cnt := by
      rw [State.manyBytes_cnt]
      omega
    refine ⟨_, rgn_mem lt, ?_⟩
    rw [byte]
    decide
  · intro x low high
    obtain rfl : x = 0x1001 := by omega
    decide
  · exact findInRange_of_none Env.early rfl manyBytes_reverse_none

end Miracle.Memblock
