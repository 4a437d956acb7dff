import Miracle.Percpu.Chunk

/-! # The search for an area ends inside the map

The search begins where the summaries promise a fit, and goes on bit by bit from there.  The
window it may look at is not cut to the map, but the promised fit stops it in time: what it
finds is aligned, clear and inside the map.
-/

namespace Miracle.Percpu

open BitScan

/-! ## Rounding up -/

section Align

variable {x mask q : Nat}

theorem alignMask_dvd (x mask : Nat) : mask + 1 ∣ alignMask x mask := Dvd.intro_left _ rfl

theorem le_alignMask (x mask : Nat) : x ≤ alignMask x mask := by
  unfold alignMask
  have split := Nat.div_add_mod (x + mask) (mask + 1)
  have rest := Nat.mod_lt (x + mask) (show 0 < mask + 1 by omega)
  rw [Nat.mul_comm] at split
  omega

/-- The rounding is the least multiple that is not below. -/
theorem alignMask_le (multiple : mask + 1 ∣ q) (below : x ≤ q) : alignMask x mask ≤ q := by
  obtain ⟨k, rfl⟩ := multiple
  unfold alignMask
  rw [Nat.mul_comm (mask + 1) k]
  apply Nat.mul_le_mul_right
  apply Nat.le_of_lt_succ
  rw [Nat.div_lt_iff_lt_mul (show 0 < mask + 1 by omega), Nat.add_one_mul, Nat.mul_comm k]
  omega

theorem align_dvd {a : Nat} (x : Nat) (pos : 0 < a) : a ∣ align x a := by
  have multiple := alignMask_dvd x (a - 1)
  rwa [Nat.sub_add_cancel pos] at multiple

theorem le_align (x a : Nat) : x ≤ align x a := le_alignMask x (a - 1)

end Align

/-! ## The promise of the summaries -/

/-- Moreover the area ends inside the region that is reported. -/
def FitsIn (chunk : PcpuChunk) (allocBits a : Nat) (region : Nat × Nat) : Prop :=
  ∃ q, region.1 ≤ q ∧ q ≤ region.1 + blockBits ∧ a ∣ q ∧ q + allocBits ≤ chunk.mapBits ∧
    Clear chunk.allocMap q (q + allocBits) ∧ q + allocBits ≤ region.1 + region.2

/-- A clear run of a block is one of the map. -/
theorem Clear.of_view {m : Bitmap} {i s e : Nat} (clear : Clear (blockView m i) s e) :
    Clear m (i * blockBits + s) (i * blockBits + e) := by
  intro j lo hi
  have bit := clear (j - i * blockBits) (by omega) (by omega)
  rwa [blockView, show i * blockBits + (j - i * blockBits) = j by omega] at bit

/-- The length of the free area carried over to block `i` ends at its left edge. -/
structure Carried (chunk : PcpuChunk) (a i bitOff bits : Nat) : Prop where
  edge : bitOff + bits = i * blockBits
  clear : Clear chunk.allocMap bitOff (bitOff + bits)
  aligned : a ∣ bitOff

theorem Carried.grow {chunk : PcpuChunk} {a i bitOff bits n : Nat} (carried : Carried chunk a i bitOff bits)
    (left : Clear (blockView chunk.allocMap i) 0 n) : Clear chunk.allocMap bitOff (bitOff + (bits + n)) := by
  have edge := carried.edge
  apply (carried.clear.join (Clear.of_view left) (by omega)).mono le_rfl
  omega

theorem nextFitLoop_fitsIn {chunk : PcpuChunk} {allocBits a left i blockOff bitOff bits : Nat}
    (ok : BlocksOk chunk.nrBlocks chunk.allocMap chunk.mdBlocks) (rounds : i + left = chunk.nrBlocks ∨ left = 0)
    (unit : a ∣ blockBits) (pos : 0 < a) (some_bits : 0 < allocBits)
    (carried : bits ≠ 0 → Carried chunk a i bitOff bits) :
    (nextFitLoop chunk allocBits a left i blockOff bitOff bits).1 = chunk.mapBits ∨
      FitsIn chunk allocBits a (nextFitLoop chunk allocBits a left i blockOff bitOff bits) := by
  induction left generalizing i blockOff bitOff bits with
  | zero => exact .inl rfl
  | succ left ih =>
      have below : i < chunk.nrBlocks := by omega
      have summary := ok i below
      have room : i * blockBits + blockBits ≤ chunk.mapBits := by
        rw [← Nat.succ_mul]
        exact Nat.mul_le_mul_right blockBits below
      obtain ⟨leftIn, leftClear, -⟩ := leftRun_iff.mp summary.left
      obtain ⟨rightIn, rightClear, -⟩ := rightRun_iff.mp summary.right
      have multiple : a ∣ i * blockBits := Dvd.dvd.mul_left unit i
      unfold nextFitLoop
      simp only
      split
      · -- the area carried over is long enough with this block's left run
        rename_i long
        have carry := carried long.1
        have edge := carry.edge
        have within : bitOff + allocBits ≤ bitOff + (bits + (chunk.mdBlocks i).leftFree) := Nat.add_le_add_left long.2 bitOff
        refine .inr ⟨bitOff, le_rfl, by omega, carry.aligned, by omega, ?_, within⟩
        exact (carry.grow leftClear).mono le_rfl within
      · split
        · rename_i whole
          have carry := carried whole.1
          have edge := carry.edge
          apply ih (by omega)
          intro _
          refine ⟨?_, carry.grow leftClear, carry.aligned⟩
          rw [Nat.succ_mul]
          omega
        · split
          · -- the block's longest run holds an aligned area
            rename_i fit
            obtain ⟨hinted, -, long⟩ := fit
            have inside := summary.inside (by omega)
            have padded := le_align (chunk.mdBlocks i).contigHintStart a
            have firstLe : (chunk.mdBlocks i).firstFree ≤ (chunk.mdBlocks i).contigHintStart :=
              summary.first_le (by omega) (summary.run _ le_rfl (by omega))
            refine .inr ⟨i * blockBits + align (chunk.mdBlocks i).contigHintStart a, ?_, ?_, ?_, ?_, ?_, ?_⟩
            · simp only [pcpuBlockOffToOff]
              omega
            · simp only [pcpuBlockOffToOff]
              omega
            · exact Nat.dvd_add multiple (align_dvd _ pos)
            · omega
            · have upper : align (chunk.mdBlocks i).contigHintStart a + allocBits ≤
                  (chunk.mdBlocks i).contigHintStart + (chunk.mdBlocks i).contigHint := by omega
              have run := Clear.of_view (summary.run.mono padded upper)
              rwa [← Nat.add_assoc] at run
            · simp only [pcpuBlockOffToOff]
              omega
          · have padded := le_align (blockBits - (chunk.mdBlocks i).rightFree) a
            have aligned : a ∣ pcpuBlockOffToOff i (align (blockBits - (chunk.mdBlocks i).rightFree) a) :=
              Nat.dvd_add multiple (align_dvd _ pos)
            have run := Clear.of_view (rightClear.mono padded le_rfl)
            split
            · rename_i long
              refine .inr ⟨_, le_rfl, by omega, aligned, ?_, run.mono le_rfl ?_, Nat.add_le_add_left long _⟩
              · simp only [pcpuBlockOffToOff]
                omega
              · simp only [pcpuBlockOffToOff]
                omega
            · apply ih (by omega)
              intro proper
              refine ⟨?_, run.mono le_rfl ?_, aligned⟩
              · rw [Nat.succ_mul]
                simp only [pcpuBlockOffToOff]
                omega
              · simp only [pcpuBlockOffToOff]
                omega

section Find

variable {chunk : PcpuChunk} {allocBits a : Nat}

theorem nextFitRegion_fitsIn (ok : BlocksOk chunk.nrBlocks chunk.allocMap chunk.mdBlocks) (unit : a ∣ blockBits)
    (pos : 0 < a) (some_bits : 0 < allocBits) (bitOff : Nat) :
    (pcpuNextFitRegion chunk allocBits a bitOff).1 = chunk.mapBits ∨
      FitsIn chunk allocBits a (pcpuNextFitRegion chunk allocBits a bitOff) :=
  nextFitLoop_fitsIn ok (by omega) unit pos some_bits (fun carried => absurd rfl carried)

/-- The start that the search settles on is that of a region, which is populated where that
    was asked for. -/
def FitFound (chunk : PcpuChunk) (allocBits a : Nat) (popOnly : Bool) (bitOff : Nat) : Prop :=
  ∃ bits, FitsIn chunk allocBits a (bitOff, bits) ∧ (popOnly = true → pcpuIsPopulated chunk bitOff bits = none)

theorem findFitLoop_found (ok : BlocksOk chunk.nrBlocks chunk.allocMap chunk.mdBlocks) (unit : a ∣ blockBits)
    (pos : 0 < a) (some_bits : 0 < allocBits) (popOnly : Bool) (fuel bitOff : Nat) :
    findFitLoop chunk allocBits a popOnly fuel bitOff = chunk.mapBits ∨
      FitFound chunk allocBits a popOnly (findFitLoop chunk allocBits a popOnly fuel bitOff) := by
  induction fuel generalizing bitOff with
  | zero => exact .inl rfl
  | succ fuel ih =>
      have region := nextFitRegion_fitsIn ok unit pos some_bits bitOff
      unfold findFitLoop
      simp only
      split
      · cases popOnly with
        | true =>
            simp only [if_true]
            cases populated : pcpuIsPopulated chunk (pcpuNextFitRegion chunk allocBits a bitOff).1
                (pcpuNextFitRegion chunk allocBits a bitOff).2 with
            | none => exact region.imp_right fun fits => ⟨_, fits, fun _ => populated⟩
            | some nextOff => exact ih nextOff
        | false => exact region.imp_right fun fits => ⟨_, fits, nofun⟩
      · rename_i beyond
        refine region.imp_right fun fits => ?_
        obtain ⟨q, lower, -, -, inside, -⟩ := fits
        omega

theorem findBlockFit_found (ok : BlocksOk chunk.nrBlocks chunk.allocMap chunk.mdBlocks) (unit : a ∣ blockBits)
    (pos : 0 < a) (some_bits : 0 < allocBits) {popOnly : Bool} {bitOff : Nat}
    (found : pcpuFindBlockFit chunk allocBits a popOnly = some bitOff) : FitFound chunk allocBits a popOnly bitOff := by
  unfold pcpuFindBlockFit at found
  simp only at found
  split at found
  · exact absurd found.symm (Option.some_ne_none _)
  · split at found
    · exact absurd found.symm (Option.some_ne_none _)
    · rename_i proper
      rw [← Option.some.inj found]
      exact (findFitLoop_found ok unit pos some_bits popOnly _ _).resolve_left proper

end Find

/-! ## The bits themselves -/

theorem findZeroAreaLoop_spec {m : Bitmap} {size nr mask fuel start q : Nat} (enough : size < fuel + start)
    (lower : start ≤ q) (multiple : mask + 1 ∣ q) (fit : q + nr ≤ size) (clear : Clear m q (q + nr)) (pos : 0 < nr) :
    start ≤ findZeroAreaLoop m size nr mask fuel start ∧ findZeroAreaLoop m size nr mask fuel start ≤ q ∧
      mask + 1 ∣ findZeroAreaLoop m size nr mask fuel start ∧
      Clear m (findZeroAreaLoop m size nr mask fuel start) (findZeroAreaLoop m size nr mask fuel start + nr) := by
  induction fuel generalizing start with
  | zero => omega
  | succ fuel ih =>
      have zeroLe : findNext m false size start ≤ q := findNext_le lower (clear q le_rfl (by omega))
      have zeroGe := (findNext_spec m false size start).2.1 (by omega)
      have indexLe := alignMask_le multiple zeroLe
      have indexGe := le_alignMask (findNext m false size start) mask
      have indexed := alignMask_dvd (findNext m false size start) mask
      set index := alignMask (findNext m false size start) mask
      obtain ⟨upper, lower', one, zeros⟩ := findNext_spec m true (index + nr) index
      have round : findZeroAreaLoop m size nr mask (fuel + 1) start =
          if findNext m true (index + nr) index < index + nr then
            findZeroAreaLoop m size nr mask fuel (findNext m true (index + nr) index + 1)
          else index := if_neg (show ¬size < index + nr by omega)
      rw [round]
      split
      · rename_i blocked
        -- the set bit lies before the fit
        have outside := clear.set_bit_outside (one blocked)
        have further := lower' (by omega)
        obtain ⟨ge, le, dvd, area⟩ := @ih (findNext m true (index + nr) index + 1) (by omega) (by omega)
        exact ⟨by omega, le, dvd, area⟩
      · refine ⟨by omega, indexLe, indexed, ?_⟩
        intro j lo hi
        simpa using zeros j lo (by omega)

end Miracle.Percpu
