import Miracle.Percpu.Basic

/-! # A block's summary agrees with its bits

The invariant of one block and the four ways in which the allocator changes a summary: a scan
of the block, an area taken beside the longest run, a block taken whole, and an area given
back.  Each of them is proved about the block's own bits, `[0, blockBits)`.
-/

namespace Miracle.Percpu

open BitScan

/-- What a block's summary says about the block's bits. -/
structure BlockOk (m : Bitmap) (block : PcpuBlockMd) : Prop where
  longest : Longest m blockBits block.contigHint
  inside : 0 < block.contigHint → block.contigHintStart + block.contigHint ≤ blockBits
  run : Clear m block.contigHintStart (block.contigHintStart + block.contigHint)
  left : LeftRun m blockBits block.leftFree
  right : RightRun m blockBits block.rightFree
  first : ∀ i, i < block.firstFree → i < blockBits → m i = true

theorem BlockOk.congr {m m' : Bitmap} {block : PcpuBlockMd} (ok : BlockOk m block)
    (same : ∀ i, i < blockBits → m i = m' i) : BlockOk m' block where
  longest := ok.longest.congr same
  inside := ok.inside
  run := by
    intro i lo hi
    have inside := ok.inside (by omega)
    rw [← same i (by omega)]
    exact ok.run i lo hi
  left := ok.left.congr same
  right := ok.right.congr same
  first := fun i lt below => (same i below).symm.trans (ok.first i lt below)

/-- A clear bit of the block is in no place that the summary calls taken. -/
theorem BlockOk.first_le {m : Bitmap} {block : PcpuBlockMd} {i : Nat} (ok : BlockOk m block)
    (below : i < blockBits) (clear : m i = false) : block.firstFree ≤ i := by
  by_contra taken
  have set := ok.first i (by omega) below
  simp [clear] at set

theorem init_blockOk {m : Bitmap} (clear : Clear m 0 blockBits) (i : Nat) : BlockOk m (pcpuInitMdBlocks i) where
  longest := longest_empty clear
  inside := fun _ => by simp [pcpuInitMdBlocks]
  run := by simpa [pcpuInitMdBlocks] using clear
  left := leftRun_empty clear
  right := rightRun_empty clear
  first := fun i lt => by simp [pcpuInitMdBlocks] at lt

/-- A block without a clear bit. -/
theorem full_blockOk {m : Bitmap} {block : PcpuBlockMd} (full : ∀ i, i < blockBits → m i = true)
    (hint : block.contigHint = 0) (left : block.leftFree = 0) (right : block.rightFree = 0) : BlockOk m block where
  longest := hint ▸ longest_full full
  inside := fun pos => by omega
  run := fun i lo hi => by omega
  left := left ▸ leftRun_full full
  right := right ▸ rightRun_full full
  first := fun i _ below => full i below

/-! ## The fields of an updated summary -/

section Update

variable (block : PcpuBlockMd) (start stop : Nat)

theorem update_firstFree : (pcpuBlockUpdate block start stop).firstFree = min block.firstFree start := by
  simp only [pcpuBlockUpdate]
  split_ifs <;> rfl

theorem update_leftFree :
    (pcpuBlockUpdate block start stop).leftFree = if start = 0 then stop - start else block.leftFree := by
  simp only [pcpuBlockUpdate]
  split_ifs <;> rfl

theorem update_rightFree :
    (pcpuBlockUpdate block start stop).rightFree = if stop = blockBits then stop - start else block.rightFree := by
  simp only [pcpuBlockUpdate]
  split_ifs <;> rfl

theorem update_contigHint : (pcpuBlockUpdate block start stop).contigHint = max block.contigHint (stop - start) := by
  simp only [pcpuBlockUpdate]
  split_ifs <;> simp_all <;> omega

/-- The hint's place is the old one, or that of the new area when this is as long. -/
theorem update_contigHintStart :
    (block.contigHint < stop - start ∧ (pcpuBlockUpdate block start stop).contigHintStart = start) ∨
      (stop - start = block.contigHint ∧ (pcpuBlockUpdate block start stop).contigHintStart = start) ∨
      (stop - start ≤ block.contigHint ∧
        (pcpuBlockUpdate block start stop).contigHintStart = block.contigHintStart) := by
  simp only [pcpuBlockUpdate]
  split_ifs <;> simp_all

end Update

/-- The hint's run after an update, when both the old one and the new area are clear. -/
theorem update_run {m : Bitmap} {block : PcpuBlockMd} {start stop w : Nat} (ordered : start ≤ stop)
    (old : Clear m block.contigHintStart (block.contigHintStart + block.contigHint))
    (oldIn : 0 < block.contigHint → block.contigHintStart + block.contigHint ≤ w)
    (new : Clear m start stop) (newIn : stop ≤ w) :
    Clear m (pcpuBlockUpdate block start stop).contigHintStart
        ((pcpuBlockUpdate block start stop).contigHintStart + (pcpuBlockUpdate block start stop).contigHint) ∧
      (0 < (pcpuBlockUpdate block start stop).contigHint →
        (pcpuBlockUpdate block start stop).contigHintStart + (pcpuBlockUpdate block start stop).contigHint ≤ w) := by
  rw [update_contigHint]
  rcases update_contigHintStart block start stop with ⟨length, place⟩ | ⟨length, place⟩ | ⟨length, place⟩
  · rw [place, Nat.max_eq_right length.le]
    exact ⟨new.mono le_rfl (by omega), fun _ => by omega⟩
  · rw [place, ← length, Nat.max_self]
    exact ⟨new.mono le_rfl (by omega), fun _ => by omega⟩
  · rw [place, Nat.max_eq_left length]
    exact ⟨old, oldIn⟩

/-! ## The scan of a block -/

/-- The summary of the part `[0, p)` of the block, which ends behind a set bit. -/
structure Scanned (m : Bitmap) (p : Nat) (block : PcpuBlockMd) : Prop where
  below : p ≤ blockBits
  edge : 0 < p → m (p - 1) = true
  longest : Longest m p block.contigHint
  inside : 0 < block.contigHint → block.contigHintStart + block.contigHint ≤ p
  run : Clear m block.contigHintStart (block.contigHintStart + block.contigHint)
  left : LeftRun m p block.leftFree
  right : block.rightFree = 0
  first : ∀ i, i < block.firstFree → i < blockBits → m i = true
  started : block.firstFree ≤ p

/-- Set bits after the part do not change its summary. -/
theorem Scanned.skip {m : Bitmap} {p q : Nat} {block : PcpuBlockMd} (scanned : Scanned m p block) (further : p ≤ q)
    (below : q ≤ blockBits) (full : ∀ i, p ≤ i → i < q → m i = true) : Scanned m q block where
  below := below
  edge := by
    intro pos
    by_cases grown : p < q
    · exact full (q - 1) (by omega) (by omega)
    · obtain rfl : p = q := by omega
      exact scanned.edge pos
  longest := scanned.longest.grow_set further full
  inside := fun pos => (scanned.inside pos).trans further
  run := scanned.run
  left := by
    rcases Nat.eq_zero_or_pos p with rfl | pos
    · obtain ⟨most, -, -⟩ := leftRun_iff.mp scanned.left
      refine leftRun_iff.mpr ⟨by omega, fun i lo hi => by omega, fun lt => ?_⟩
      rw [show block.leftFree = 0 by omega]
      exact full 0 le_rfl (by omega)
    · exact scanned.left.grow further scanned.edge pos
  right := scanned.right
  first := scanned.first
  started := scanned.started.trans further

theorem Scanned.blockOk {m : Bitmap} {block : PcpuBlockMd} (scanned : Scanned m blockBits block) : BlockOk m block where
  longest := scanned.longest
  inside := scanned.inside
  run := scanned.run
  left := scanned.left
  right := by
    rw [scanned.right]
    exact rightRun_iff.mpr ⟨Nat.zero_le _, fun i lo hi => by omega, fun pos => scanned.edge pos⟩
  first := scanned.first

/-- What the scan knows after the next region of clear bits. -/
theorem scanned_update {m : Bitmap} {rs re : Nat} {block : PcpuBlockMd} (scanned : Scanned m rs block)
    (proper : rs < re) (below : re ≤ blockBits) (clear : Clear m rs re) (stop : re < blockBits → m re = true) :
    (re < blockBits → Scanned m (re + 1) (pcpuBlockUpdate block rs re)) ∧
      (re = blockBits → BlockOk m (pcpuBlockUpdate block rs re)) := by
  have started := scanned.started
  obtain ⟨run, inside⟩ := update_run (w := re) proper.le scanned.run
    (fun pos => (scanned.inside pos).trans proper.le) clear le_rfl
  have longest := scanned.longest.grow_clear proper.le scanned.edge clear
  have first : ∀ i, i < (pcpuBlockUpdate block rs re).firstFree → i < blockBits → m i = true := by
    rw [update_firstFree, Nat.min_eq_left started]
    exact scanned.first
  have left : LeftRun m re (pcpuBlockUpdate block rs re).leftFree := by
    rw [update_leftFree]
    rcases Nat.eq_zero_or_pos rs with rfl | pos
    · exact leftRun_empty clear
    · rw [if_neg (by omega)]
      exact scanned.left.grow proper.le scanned.edge pos
  constructor
  · intro more
    have set : ∀ i, re ≤ i → i < re + 1 → m i = true := fun i lo hi => by
      rw [show i = re by omega]
      exact stop more
    refine ⟨more, fun _ => stop more, ?_, fun pos => (inside pos).trans (by omega), run, ?_, ?_, first, ?_⟩
    · rw [update_contigHint]
      exact longest.grow_set (by omega) set
    · obtain ⟨most, clear', stop'⟩ := leftRun_iff.mp left
      refine leftRun_iff.mpr ⟨by omega, clear', fun _ => ?_⟩
      rcases Nat.eq_or_lt_of_le most with whole | part
      · rw [whole]
        exact stop more
      · exact stop' part
    · rw [update_rightFree, if_neg (by omega)]
      exact scanned.right
    · rw [update_firstFree]
      omega
  · rintro rfl
    refine ⟨by rw [update_contigHint]; exact longest, inside, run, left, ?_, first⟩
    rw [update_rightFree, if_pos rfl]
    exact MaximalRun.rightRun ⟨proper, le_rfl, clear, scanned.edge, fun lt => absurd lt (lt_irrefl _)⟩

theorem updateRegions_scanned {m : Bitmap} {fuel p : Nat} {block : PcpuBlockMd} (enough : blockBits < fuel + p)
    (scanned : Scanned m p block) : BlockOk m (updateRegions m fuel p block) := by
  induction fuel generalizing p block with
  | zero =>
      have below := scanned.below
      omega
  | succ fuel ih =>
      obtain ⟨zeroIn, zeroLower, zero, ones⟩ := findNext_spec m false blockBits p
      obtain ⟨oneIn, oneLower, one, zeros⟩ := findNext_spec m true blockBits (findNext m false blockBits p + 1)
      have reached := scanned.skip (zeroLower scanned.below) zeroIn (fun i lo hi => by simpa using ones i lo hi)
      set rs := findNext m false blockBits p
      set re := findNext m true blockBits (rs + 1)
      change BlockOk m (if rs < re then updateRegions m fuel (re + 1) (pcpuBlockUpdate block rs re) else block)
      split
      · rename_i proper
        have clear : Clear m rs re := by
          intro i lo hi
          rcases Nat.eq_or_lt_of_le lo with rfl | above
          · exact zero (by omega)
          · simpa using zeros i above hi
        obtain ⟨more, done⟩ := scanned_update reached proper oneIn clear one
        rcases Nat.lt_or_ge re blockBits with further | last
        · have below := zeroLower scanned.below
          exact ih (by omega) (more further)
        · -- the region reached the end, and the next round finds nothing
          cases fuel with
          | zero => exact done (by omega)
          | succ fuel =>
              unfold updateRegions
              have ended : findNext m false blockBits (re + 1) = blockBits := if_pos (by omega)
              have ended' : findNext m true blockBits (blockBits + 1) = blockBits := if_pos (by omega)
              simp only [pcpuNextUnpop, findNextZeroBit, findNextBit, ended, ended', lt_irrefl, if_false]
              exact done (by omega)
      · rename_i stopped
        have whole : rs = blockBits := by
          by_contra short
          have lower := oneLower (by omega)
          omega
        exact (whole ▸ reached).blockOk

/-- A scan restores the summary of any block that has no clear bit below its first. -/
theorem refresh_blockOk {m : Bitmap} {block : PcpuBlockMd}
    (first : ∀ i, i < block.firstFree → i < blockBits → m i = true) : BlockOk m (pcpuBlockRefreshHint m block) := by
  unfold pcpuBlockRefreshHint
  rcases Nat.lt_or_ge block.firstFree blockBits with within | past
  · have full : ∀ i, i < block.firstFree → m i = true := fun i lt => first i lt (by omega)
    apply updateRegions_scanned (by omega)
    exact ⟨within.le, fun pos => full _ (by omega), longest_full full, fun pos => absurd pos (lt_irrefl 0),
      fun i lo hi => by simp only at lo hi; omega, leftRun_full full, rfl, first, le_rfl⟩
  · have full : ∀ i, i < blockBits → m i = true := fun i below => first i (by omega) below
    have ended : findNext m false blockBits block.firstFree = blockBits := if_pos past
    have ended' : findNext m true blockBits (blockBits + 1) = blockBits := if_pos (by omega)
    unfold updateRegions
    simp only [pcpuNextUnpop, findNextZeroBit, findNextBit, ended, ended', lt_irrefl, if_false]
    exact full_blockOk full rfl rfl rfl

/-! ## What an allocation and a free do to the summaries of the blocks they touch -/

/-! ## Taking an area -/

section Take

variable {m m' : Bitmap} {block : PcpuBlockMd}

/-- Bits that were set stay set when an area is taken. -/
theorem taken_set {s n i : Nat} (taken : ∀ i, i < blockBits → m' i = bitmapSet m s n i) (below : i < blockBits)
    (set : m i = true) : m' i = true := by
  rw [taken i below, bitmapSet_true]
  exact .inr set

/-- An area beside the longest run leaves the hint and cuts the runs at the edges. -/
theorem beside_blockOk {s e : Nat} (ok : BlockOk m block) (area : Clear m s e) (proper : s < e)
    (inside : e ≤ blockBits)
    (miss : ¬(block.contigHintStart ≤ s ∧ s < block.contigHintStart + block.contigHint)) :
    BlockOk (bitmapSet m s (e - s))
      { block with leftFree := min block.leftFree s, rightFree := min block.rightFree (blockBits - e) } := by
  have hinted : 0 < block.contigHint := by
    have bound := ok.longest.le inside area
    omega
  have apart := ok.longest.apart ok.run (ok.inside hinted) area miss
  refine ⟨ok.longest.set ok.run (ok.inside hinted) apart proper.le, ok.inside, ok.run.bitmapSet (by omega),
    ok.left.set proper inside, ok.right.set proper inside, ?_⟩
  exact fun i lt below => bitmapSet_true.mpr (.inr (ok.first i lt below))

/-- The first free bit of an allocation's first block. -/
def takenFirstFree (m : Bitmap) (s bits : Nat) (block : PcpuBlockMd) : Nat :=
  if s = block.firstFree then findNextZeroBit m blockBits (s + bits) else block.firstFree

theorem allocFirstBlock_eq (m : Bitmap) (inner : Bool) (s eOff bits : Nat) (block : PcpuBlockMd) :
    allocFirstBlock m inner s eOff bits block =
      if block.contigHintStart ≤ s ∧ s < block.contigHintStart + block.contigHint then
        pcpuBlockRefreshHint m { block with firstFree := takenFirstFree m s bits block }
      else
        { block with
          firstFree := takenFirstFree m s bits block
          leftFree := min block.leftFree s
          rightFree := if inner then min block.rightFree (blockBits - eOff) else 0 } := by
  simp only [allocFirstBlock, takenFirstFree]
  by_cases place : s = block.firstFree
  · simp only [if_pos place]
  · simp only [if_neg place]

theorem allocFirst_blockOk {s e eOff bits : Nat} {inner : Bool} (ok : BlockOk m block) (area : Clear m s e)
    (proper : s < e) (inside : e ≤ blockBits) (taken : ∀ i, i < blockBits → m' i = bitmapSet m s (e - s) i)
    (ends : (inner = true ∧ eOff = e ∧ s + bits = e) ∨ (inner = false ∧ e = blockBits ∧ blockBits ≤ s + bits)) :
    BlockOk m' (allocFirstBlock m' inner s eOff bits block) := by
  have same := fun i below => (taken i below).symm
  -- the first free bit moves only if the area takes its place
  have first : ∀ i, i < takenFirstFree m' s bits block → i < blockBits → m' i = true := by
    intro i lt below
    unfold takenFirstFree at lt
    split at lt
    · rename_i place
      rcases Nat.lt_or_ge i s with before | behind
      · exact taken_set taken below (ok.first i (by omega) below)
      · rcases Nat.lt_or_ge i e with within | after
        · rw [taken i below]
          exact bitmapSet_inside (by omega)
        · have ones := (findNext_spec m' false blockBits (s + bits)).2.2.2
          simpa using ones i (by omega) lt
    · exact taken_set taken below (ok.first i lt below)
  rw [allocFirstBlock_eq]
  split
  · exact refresh_blockOk first
  · rename_i miss
    have beside := beside_blockOk ok area proper inside miss
    refine ⟨beside.longest.congr same, beside.inside, (beside.congr same).run, beside.left.congr same, ?_, first⟩
    rcases ends with ⟨rfl, rfl, -⟩ | ⟨rfl, rfl, -⟩
    · exact beside.right.congr same
    · simpa using beside.right.congr same

theorem allocInner_blockOk (taken : ∀ i, i < blockBits → m' i = true) : BlockOk m' (allocInnerBlock block) :=
  full_blockOk taken rfl rfl rfl

theorem allocLast_blockOk {e : Nat} (ok : BlockOk m block) (area : Clear m 0 e) (proper : 0 < e)
    (inside : e ≤ blockBits) (taken : ∀ i, i < blockBits → m' i = bitmapSet m 0 e i) :
    BlockOk m' (allocLastBlock m' e block) := by
  have same := fun i below => (taken i below).symm
  have first : ∀ i, i < findNextZeroBit m' blockBits e → i < blockBits → m' i = true := by
    intro i lt below
    rcases Nat.lt_or_ge i e with within | after
    · rw [taken i below]
      exact bitmapSet_inside (by omega)
    · have ones := (findNext_spec m' false blockBits e).2.2.2
      simpa using ones i after lt
  unfold allocLastBlock
  split
  · rename_i whole
    exact allocInner_blockOk fun i below => by
      rw [taken i below]
      exact bitmapSet_inside (by omega)
  · simp only
    split
    · exact refresh_blockOk first
    · rename_i behind
      have miss : ¬(block.contigHintStart ≤ 0 ∧ 0 < block.contigHintStart + block.contigHint) := by
        omega
      have beside := beside_blockOk ok area proper inside miss
      refine ⟨beside.longest.congr same, beside.inside, (beside.congr same).run, ?_, beside.right.congr same, first⟩
      simpa using beside.left.congr same

end Take

/-! ## Giving an area back -/

section GiveBack

variable {m m' : Bitmap} {block : PcpuBlockMd}

/-- The bit before the hint's run is set. -/
theorem BlockOk.hint_before (ok : BlockOk m block) (hinted : 0 < block.contigHint) (pos : 0 < block.contigHintStart) :
    m (block.contigHintStart - 1) = true := by
  by_contra unset
  have inside := ok.inside hinted
  have longer : Clear m (block.contigHintStart - 1) (block.contigHintStart + block.contigHint) := by
    intro i lo hi
    rcases Nat.eq_or_lt_of_le lo with rfl | above
    · exact Bool.eq_false_of_not_eq_true unset
    · exact ok.run i (by omega) hi
  have bound := ok.longest.le inside longer
  omega

/-- And so is the bit after it. -/
theorem BlockOk.hint_after (ok : BlockOk m block) (hinted : 0 < block.contigHint)
    (room : block.contigHintStart + block.contigHint < blockBits) :
    m (block.contigHintStart + block.contigHint) = true := by
  by_contra unset
  have longer : Clear m block.contigHintStart (block.contigHintStart + block.contigHint + 1) := by
    intro i lo hi
    rcases Nat.eq_or_lt_of_le (Nat.le_of_lt_succ hi) with rfl | below
    · exact Bool.eq_false_of_not_eq_true unset
    · exact ok.run i lo below
  have bound := ok.longest.le room longer
  omega

theorem BlockOk.full (ok : BlockOk m block) (hint : block.contigHint = 0) {i : Nat} (below : i < blockBits) :
    m i = true := by
  by_contra unset
  have bit : Clear m i (i + 1) := fun j lo hi => by
    rw [show j = i by omega]
    exact Bool.eq_false_of_not_eq_true unset
  have bound := ok.longest.le below bit
  omega

theorem freeStart_spec {s : Nat} (ok : BlockOk m block) (inside : s ≤ blockBits)
    (same : ∀ i, i < s → m' i = m i) :
    freeStart m' s block ≤ s ∧ Clear m' (freeStart m' s block) s ∧
      (0 < freeStart m' s block → m' (freeStart m' s block - 1) = true) := by
  unfold freeStart
  split
  · rename_i touches
    rcases Nat.eq_zero_or_pos block.contigHint with none_left | hinted
    · refine ⟨by omega, fun i lo hi => by omega, fun pos => ?_⟩
      rw [same _ (by omega)]
      exact ok.full none_left (by omega)
    · refine ⟨by omega, fun i lo hi => ?_, fun pos => ?_⟩
      · rw [same i hi]
        exact ok.run i lo (by omega)
      · rw [same _ (by omega)]
        exact ok.hint_before hinted pos
  · rcases findLastBit_spec m' s with ⟨whole, clear⟩ | ⟨below, set, clear⟩
    · rw [if_pos whole.symm]
      exact ⟨Nat.zero_le s, clear, fun pos => absurd pos (lt_irrefl 0)⟩
    · rw [if_neg (by omega)]
      exact ⟨below, clear, fun _ => set⟩

theorem freeStop_spec {e : Nat} (ok : BlockOk m block) (inside : e ≤ blockBits)
    (same : ∀ i, e ≤ i → i < blockBits → m' i = m i) :
    e ≤ freeStop m' e block ∧ freeStop m' e block ≤ blockBits ∧ Clear m' e (freeStop m' e block) ∧
      (freeStop m' e block < blockBits → m' (freeStop m' e block) = true) := by
  unfold freeStop
  split
  · rename_i touches
    rcases Nat.eq_zero_or_pos block.contigHint with none_left | hinted
    · refine ⟨by omega, by omega, fun i lo hi => by omega, fun lt => ?_⟩
      rw [same _ (by omega) lt]
      exact ok.full none_left lt
    · have room := ok.inside hinted
      refine ⟨by omega, room, fun i lo hi => ?_, fun lt => ?_⟩
      · rw [same i lo (by omega)]
        exact ok.run i (by omega) hi
      · rw [same _ (by omega) lt]
        exact ok.hint_after hinted lt
  · obtain ⟨upper, lower, one, zeros⟩ := findNext_spec m' true blockBits e
    exact ⟨lower inside, upper, fun i lo hi => by simpa using zeros i lo hi, one⟩

/-- The summary after a free, given the whole free run around the freed area. -/
theorem freed_blockOk {s k a b : Nat} (ok : BlockOk m block)
    (given : ∀ i, i < blockBits → m' i = bitmapClear m s k i) (merged : MaximalRun m' blockBits a b)
    (lower : a ≤ s) (upper : s + k ≤ b) : BlockOk m' (pcpuBlockUpdate block a b) := by
  have same := fun i below => (given i below).symm
  have merged' := merged.congr given
  have proper := merged.nonempty
  obtain ⟨run, inside⟩ := @update_run (bitmapClear m s k) block a b blockBits proper.le
    ok.run.bitmapClear ok.inside merged'.clear merged.inside
  refine BlockOk.congr ⟨?_, inside, run, ?_, ?_, ?_⟩ same
  · rw [update_contigHint]
    exact ok.longest.clear merged' lower upper
  · rw [update_leftFree]
    split
    · rename_i start
      subst start
      exact merged'.leftRun
    · exact ok.left.clear merged' lower (by omega)
  · rw [update_rightFree]
    split
    · rename_i stop
      subst stop
      exact merged'.rightRun
    · have room := merged.inside
      exact ok.right.clear merged' upper (by omega)
  · rw [update_firstFree]
    intro i lt below
    rw [bitmapClear_outside (by omega)]
    exact ok.first i (by omega) below

end GiveBack

end Miracle.Percpu
