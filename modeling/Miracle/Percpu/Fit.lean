import Miracle.Percpu.Creation

/-! # A fit is a fit

`pcpu_find_block_fit` comes to an end, and from the start that it finds `pcpu_alloc_area` takes
an area of the map: clear, with its pages populated where that was asked for, and found without
a look behind the map.
-/

namespace Miracle.Percpu

open BitScan

/-! ## The search ends -/

/-- The search of `pcpu_find_block_fit` for so many rounds: `none` while it is still running. -/
def fitRounds (chunk : PcpuChunk) (allocBits a : Nat) (popOnly : Bool) : Nat → Nat → Option Nat
  | 0, _ => none
  | rounds + 1, bitOff =>
    let region := pcpuNextFitRegion chunk allocBits a bitOff
    if region.1 < chunk.mapBits then
      if popOnly then
        match pcpuIsPopulated chunk region.1 region.2 with
        | none => some region.1
        | some nextOff => fitRounds chunk allocBits a popOnly rounds nextOff
      else some region.1
    else some region.1

section Ends

variable {chunk : PcpuChunk} {allocBits a : Nat}

/-- The start of a region may lie before the place where the walk began, but not in an earlier
    block. -/
theorem nextFitLoop_from {low left i blockOff bitOff bits : Nat} (behind : low ≤ i * blockBits) (carried : bits ≠ 0 → low ≤ bitOff) :
    (nextFitLoop chunk allocBits a left i blockOff bitOff bits).1 = chunk.mapBits ∨
      low ≤ (nextFitLoop chunk allocBits a left i blockOff bitOff bits).1 := by
  induction left generalizing i blockOff bitOff bits with
  | zero => exact .inl rfl
  | succ left ih =>
      have further : low ≤ (i + 1) * blockBits := behind.trans (Nat.mul_le_mul_right blockBits (Nat.le_succ i))
      have inBlock (off : Nat) : low ≤ pcpuBlockOffToOff i off := behind.trans (Nat.le_add_right _ off)
      unfold nextFitLoop
      simp only
      split
      · rename_i long
        exact .inr (carried long.1)
      · split
        · rename_i whole
          exact ih further fun _ => carried whole.1
        · split
          · exact .inr (inBlock _)
          · split
            · exact .inr (inBlock _)
            · exact ih further fun _ => inBlock _

/-- The offset after unpopulated pages is in a later block than the region. -/
theorem isPopulated_next {bitOff bits nextOff : Nat} (found : pcpuIsPopulated chunk bitOff bits = some nextOff) :
    bitOff / blockBits + 1 ≤ nextOff / blockBits := by
  unfold pcpuIsPopulated pcpuNextUnpop at found
  simp only at found
  split at found
  · exact absurd found.symm (Option.some_ne_none _)
  · rename_i unpopulated
    rw [← Option.some.inj found]
    generalize ((bitOff + bits) * minAllocSize + (pageSize - 1)) / pageSize = stop at unpopulated ⊢
    obtain ⟨le, ge, -⟩ := findNext_spec chunk.populated false stop (bitOff * minAllocSize / pageSize)
    change ¬stop ≤ findNext chunk.populated false stop (bitOff * minAllocSize / pageSize) at unpopulated
    have start : bitOff * minAllocSize / pageSize ≤ findNext chunk.populated false stop (bitOff * minAllocSize / pageSize) := by
      rcases Nat.le_total (bitOff * minAllocSize / pageSize) stop with inside | past
      · exact ge inside
      · have ended := @findNext_past chunk.populated false _ _ past
        omega
    change bitOff / blockBits + 1 ≤
      findNext chunk.populated true stop (findNext chunk.populated false stop (bitOff * minAllocSize / pageSize) + 1) *
        pageSize / minAllocSize / blockBits
    have next := (findNext_spec chunk.populated true stop
      (findNext chunk.populated false stop (bitOff * minAllocSize / pageSize) + 1)).2.1 (by omega)
    simp only [pageSize, minAllocSize, blockBits] at *
    omega

/-- The rounds that the search is given are enough. -/
theorem fitRounds_ends {popOnly : Bool} {rounds bitOff : Nat} (enough : chunk.nrBlocks < rounds + min (bitOff / blockBits) chunk.nrBlocks) :
    fitRounds chunk allocBits a popOnly rounds bitOff = some (findFitLoop chunk allocBits a popOnly rounds bitOff) := by
  induction rounds generalizing bitOff with
  | zero => omega
  | succ rounds ih =>
      unfold fitRounds findFitLoop
      simp only
      split
      · rename_i below
        cases popOnly with
        | false => rfl
        | true =>
            simp only [if_true]
            cases populated : pcpuIsPopulated chunk (pcpuNextFitRegion chunk allocBits a bitOff).1
                (pcpuNextFitRegion chunk allocBits a bitOff).2 with
            | none => rfl
            | some nextOff =>
                apply ih
                have later := isPopulated_next populated
                have region : bitOff / blockBits * blockBits ≤ (pcpuNextFitRegion chunk allocBits a bitOff).1 := by
                  have started := @nextFitLoop_from chunk allocBits a _ (chunk.nrBlocks - bitOff / blockBits)
                    (bitOff / blockBits) (bitOff % blockBits) bitOff 0 le_rfl (fun carried => absurd rfl carried)
                  exact started.resolve_left below.ne
                have block := (Nat.le_div_iff_mul_le (by decide)).mpr region
                have inMap : (pcpuNextFitRegion chunk allocBits a bitOff).1 / blockBits < chunk.nrBlocks :=
                  (Nat.div_lt_iff_lt_mul (by decide)).mpr below
                omega
      · rfl

end Ends

/-! ## The pages of a fit -/

theorem isPopulated_pages {chunk : PcpuChunk} {bitOff bits : Nat} (populated : pcpuIsPopulated chunk bitOff bits = none) {i : Nat}
    (lower : bitOff ≤ i) (upper : i < bitOff + bits) : chunk.populated (i / blockBits) = true := by
  unfold pcpuIsPopulated pcpuNextUnpop at populated
  simp only at populated
  split at populated
  · rename_i all
    have ones := (findNext_spec chunk.populated false (((bitOff + bits) * minAllocSize + (pageSize - 1)) / pageSize)
      (bitOff * minAllocSize / pageSize)).2.2.2
    have page := ones (i / blockBits) (by unfold minAllocSize pageSize blockBits; omega) (by
      refine lt_of_lt_of_le ?_ all
      unfold minAllocSize pageSize blockBits
      omega)
    simpa using page
  · exact absurd populated (Option.some_ne_none _)

/-! ## What the search reads -/

/-- The end of the words that a scan of `[offset, size)` reads, where it finds `found`. -/
def readEnd (size offset found : Nat) : Nat := if size ≤ offset then 0 else (min found (size - 1) / 64 + 1) * 64

/-- The end of the words that `bitmap_find_next_zero_area` reads. -/
def findZeroAreaReads (m : Bitmap) (size nr mask : Nat) : Nat → Nat → Nat
  | 0, _ => 0
  | fuel + 1, start =>
    let free := findNextZeroBit m size start
    let index := alignMask free mask
    if size < index + nr then readEnd size start free
    else
      let i := findNextBit m (index + nr) index
      let read := max (readEnd size start free) (readEnd (index + nr) index i)
      if i < index + nr then max read (findZeroAreaReads m size nr mask fuel (i + 1)) else read

/-- The end of what `pcpu_alloc_area` reads of `alloc_map` in its search for an area.  Its other
    scans are of one block or of the map, as their arguments say. -/
def allocAreaReads (chunk : PcpuChunk) (allocBits a start : Nat) : Nat :=
  let mask := if a ≠ 0 then a - 1 else 0
  let stop := start + allocBits + blockBits
  findZeroAreaReads chunk.allocMap stop allocBits mask (stop + 1) start

theorem readEnd_le {bound size offset found : Nat} (words : 64 ∣ bound) (inside : found < bound ∨ size ≤ bound) :
    readEnd size offset found ≤ bound := by
  unfold readEnd
  split
  · exact Nat.zero_le bound
  · omega

theorem findZeroAreaReads_le {m : Bitmap} {bound size nr mask fuel start q : Nat} (words : 64 ∣ bound) (room : q + nr ≤ bound)
    (lower : start ≤ q) (multiple : mask + 1 ∣ q) (fit : q + nr ≤ size) (clear : Clear m q (q + nr)) (pos : 0 < nr) :
    findZeroAreaReads m size nr mask fuel start ≤ bound := by
  induction fuel generalizing start with
  | zero => exact Nat.zero_le bound
  | succ fuel ih =>
      have zeroLe : findNext m false size start ≤ q := findNext_le lower (clear q le_rfl (by omega))
      have indexLe := alignMask_le multiple zeroLe
      have first : readEnd size start (findNextZeroBit m size start) ≤ bound := by
        apply readEnd_le words
        left
        change findNext m false size start < bound
        omega
      unfold findZeroAreaReads
      simp only
      change alignMask (findNextZeroBit m size start) mask ≤ q at indexLe
      generalize alignMask (findNextZeroBit m size start) mask = index at indexLe ⊢
      have second : readEnd (index + nr) index (findNextBit m (index + nr) index) ≤ bound := by
        apply readEnd_le words
        right
        omega
      rw [if_neg (by omega)]
      split
      · rename_i blocked
        -- the set bit lies before the fit, and the search goes on behind it
        have outside := clear.set_bit_outside ((findNext_spec m true (index + nr) index).2.2.1 blocked)
        change findNextBit m (index + nr) index < q ∨ q + nr ≤ findNextBit m (index + nr) index at outside
        exact max_le (max_le first second) (ih (by omega))
      · exact max_le first second

theorem mapBits_words (chunk : PcpuChunk) : 64 ∣ chunk.mapBits := Dvd.dvd.mul_left (by decide) chunk.nrPages

/-- In every reachable state the search for a fit ends; and from what it finds an area is
    taken inside the map, without a look behind the map, and in populated pages where that was
    asked for. -/
theorem percpu_fit_is_fit {s : State} (run : Reachable (fun _ _ => True) s) {allocBits a : Nat} (nonempty : 0 < allocBits)
    (power : isPowerOf2 a = true) (small : a ≤ blockBits) (popOnly : Bool) :
    fitRounds s.chunk allocBits a popOnly (s.chunk.nrBlocks + 1) s.chunk.firstBit =
        some (findFitLoop s.chunk allocBits a popOnly (s.chunk.nrBlocks + 1) s.chunk.firstBit) ∧
      ∀ start, pcpuFindBlockFit s.chunk allocBits a popOnly = some start →
        ∃ bitOff chunk, pcpuAllocArea s.chunk allocBits a start = some (bitOff * minAllocSize, chunk) ∧
          bitOff + allocBits ≤ s.chunk.mapBits ∧ Clear s.chunk.allocMap bitOff (bitOff + allocBits) ∧ a ∣ bitOff ∧
          allocAreaReads s.chunk allocBits a start ≤ s.chunk.mapBits ∧
          (popOnly = true → ∀ i, bitOff ≤ i → i < bitOff + allocBits → s.chunk.populated (i / blockBits) = true) := by
  have ok := (reachable_ok run).chunk.blocks
  obtain ⟨k, rfl⟩ := isPowerOf2_pow power
  have pos : 0 < 2 ^ k := Nat.two_pow_pos k
  have unit : 2 ^ k ∣ blockBits := by
    have most : k ≤ 10 := (Nat.pow_le_pow_iff_right (by decide)).mp (show 2 ^ k ≤ 2 ^ 10 from small)
    exact pow_dvd_pow 2 most
  refine ⟨fitRounds_ends (Nat.lt_add_right _ (Nat.lt_succ_self _)), fun start found => ?_⟩
  obtain ⟨bits, ⟨q, lower, near, multiple, room, clear, within⟩, populated⟩ := findBlockFit_found ok unit pos nonempty found
  obtain ⟨bitOff, -, taken, ge, le, aligned, available⟩ := allocArea_fit pos nonempty lower near multiple room clear
  refine ⟨bitOff, _, taken, available.inside, available.clear, aligned, ?_, fun asked i low high => ?_⟩
  · unfold allocAreaReads
    simp only
    rw [if_pos pos.ne']
    have mask : 2 ^ k - 1 + 1 = 2 ^ k := Nat.sub_add_cancel pos
    exact findZeroAreaReads_le (mapBits_words s.chunk) room lower (mask.symm ▸ multiple) (by omega) clear nonempty
  · exact isPopulated_pages (populated asked) (ge.trans low) (by omega)

/-- A chunk of eight pages, all of them populated. -/
def populatedState : State := { freshState with chunk := { freshState.chunk with populated := fun _ => true } }

/-- Four thousand bytes of it, in populated pages. -/
theorem populated_fit_is_fit : pcpuFindBlockFit populatedState.chunk 1000 2 true = some 0 ∧
    ∃ bitOff chunk, pcpuAllocArea populatedState.chunk 1000 2 0 = some (bitOff * minAllocSize, chunk) ∧
      bitOff + 1000 ≤ populatedState.chunk.mapBits ∧ Clear populatedState.chunk.allocMap bitOff (bitOff + 1000) ∧
      2 ∣ bitOff ∧ allocAreaReads populatedState.chunk 1000 2 0 ≤ populatedState.chunk.mapBits ∧
      (true = true → ∀ i, bitOff ≤ i → i < bitOff + 1000 → populatedState.chunk.populated (i / blockBits) = true) := by
  have found : pcpuFindBlockFit populatedState.chunk 1000 2 true = some 0 := by decide +kernel
  have run : Reachable (fun _ _ => True) populatedState :=
    freshState_reachable.step (.populate fun _ => true) trivial rfl
  obtain ⟨-, fits⟩ := percpu_fit_is_fit run (show 0 < 1000 by decide) (show isPowerOf2 2 = true by decide) (by decide) true
  exact ⟨found, fits 0 found⟩

end Miracle.Percpu
