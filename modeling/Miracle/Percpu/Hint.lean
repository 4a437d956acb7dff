import Miracle.Percpu.Areas

/-! # The chunk's hint after a refresh

The refresh walks over the summaries of the blocks.  Every region it meets is a free run of
the map that begins and ends at a set bit or at an end of the map, so the hint it leaves is
one of these.
-/

namespace Miracle.Percpu

open BitScan

/-- The bit before `p` is set, if there is one. -/
def Edge (m : Bitmap) (p : Nat) : Prop := 0 < p → m (p - 1) = true

/-- A free run of the map that cannot be made longer. -/
structure FreeRegion (chunk : PcpuChunk) (bitOff bits : Nat) : Prop where
  inside : bitOff + bits ≤ chunk.mapBits
  clear : Clear chunk.allocMap bitOff (bitOff + bits)
  edge : 0 < bits → Edge chunk.allocMap bitOff
  stop : bitOff + bits < chunk.mapBits → chunk.allocMap (bitOff + bits) = true

section Walk

variable {chunk : PcpuChunk} {i : Nat}

theorem block_end (below : i < chunk.nrBlocks) : i * blockBits + blockBits ≤ chunk.mapBits := by
  rw [← Nat.succ_mul]
  exact Nat.mul_le_mul_right blockBits below

/-- A summary's hint away from the block's right end, in the whole map. -/
theorem hint_region {blockOff : Nat} (summary : BlockOk (blockView chunk.allocMap i) (chunk.mdBlocks i))
    (below : i < chunk.nrBlocks) (entry : Edge chunk.allocMap (i * blockBits + blockOff))
    (hinted : (chunk.mdBlocks i).contigHint ≠ 0) (seen : blockOff ≤ (chunk.mdBlocks i).contigHintStart)
    (short : (chunk.mdBlocks i).contigHint + (chunk.mdBlocks i).contigHintStart < blockBits) :
    FreeRegion chunk (pcpuBlockOffToOff i (chunk.mdBlocks i).contigHintStart) (chunk.mdBlocks i).contigHint := by
  have room := block_end below
  unfold pcpuBlockOffToOff
  refine ⟨by omega, ?_, ?_, ?_⟩
  · have run := Clear.of_view summary.run
    rwa [← Nat.add_assoc] at run
  · intro _ pos
    rcases Nat.eq_zero_or_pos (chunk.mdBlocks i).contigHintStart with zero | positive
    · rw [show i * blockBits + (chunk.mdBlocks i).contigHintStart = i * blockBits + blockOff by omega] at pos ⊢
      exact entry pos
    · have before := summary.hint_before (by omega) positive
      rw [blockView] at before
      rwa [show i * blockBits + (chunk.mdBlocks i).contigHintStart - 1 =
        i * blockBits + ((chunk.mdBlocks i).contigHintStart - 1) by omega]
  · intro _
    have after := summary.hint_after (by omega) (by omega)
    rw [blockView] at after
    rwa [Nat.add_assoc]

/-- The free run at a block's right end, which the walk carries to the next block. -/
theorem right_region {blockOff : Nat} (summary : BlockOk (blockView chunk.allocMap i) (chunk.mdBlocks i))
    (entry : Edge chunk.allocMap (i * blockBits + blockOff)) (inBlock : blockOff < blockBits) :
    i * blockBits + blockOff ≤ (i + 1) * blockBits - (chunk.mdBlocks i).rightFree ∧
      (chunk.mdBlocks i).rightFree ≤ (i + 1) * blockBits ∧
      Clear chunk.allocMap ((i + 1) * blockBits - (chunk.mdBlocks i).rightFree) ((i + 1) * blockBits) ∧
      Edge chunk.allocMap ((i + 1) * blockBits - (chunk.mdBlocks i).rightFree) := by
  obtain ⟨within, clear, stop⟩ := rightRun_iff.mp summary.right
  have next : (i + 1) * blockBits = i * blockBits + blockBits := Nat.succ_mul i blockBits
  have run := Clear.of_view clear
  rw [← next] at run
  have place : i * blockBits + (blockBits - (chunk.mdBlocks i).rightFree) =
      (i + 1) * blockBits - (chunk.mdBlocks i).rightFree := by omega
  rw [place] at run
  refine ⟨?_, by omega, run, ?_⟩
  · by_contra early
    have outside := run.set_bit_outside (entry (by omega))
    omega
  · intro pos
    rcases Nat.lt_or_ge (chunk.mdBlocks i).rightFree blockBits with part | whole
    · have before := stop part
      rw [blockView] at before
      rwa [show (i + 1) * blockBits - (chunk.mdBlocks i).rightFree - 1 =
        i * blockBits + (blockBits - (chunk.mdBlocks i).rightFree - 1) by omega]
    · -- the whole block is free, so the walk entered it at its start
      rcases Nat.eq_zero_or_pos blockOff with zero | positive
      · rw [show (i + 1) * blockBits - (chunk.mdBlocks i).rightFree = i * blockBits + blockOff by omega] at pos ⊢
        exact entry pos
      · have outside := run.set_bit_outside (entry (by omega))
        omega

/-- The walk's state at block `i`: a free run up to the block, or a place in the block that
    comes after a set bit. -/
structure Walking (chunk : PcpuChunk) (i blockOff bitOff bits : Nat) : Prop where
  carried : bits ≠ 0 → bitOff + bits = i * blockBits ∧ Clear chunk.allocMap bitOff (bitOff + bits) ∧
    Edge chunk.allocMap bitOff
  entered : bits = 0 → blockOff < blockBits ∧ bitOff ≤ i * blockBits + blockOff ∧
    Edge chunk.allocMap (i * blockBits + blockOff)

theorem nextMdFreeLoop_region {left blockOff bitOff bits : Nat}
    (ok : BlocksOk chunk.nrBlocks chunk.allocMap chunk.mdBlocks) (rounds : i + left = chunk.nrBlocks)
    (walking : Walking chunk i blockOff bitOff bits) :
    bitOff ≤ (nextMdFreeLoop chunk left i blockOff bitOff bits).1 ∧
      ((nextMdFreeLoop chunk left i blockOff bitOff bits).1 < chunk.mapBits →
        (0 < left ∨ bits ≠ 0) →
        FreeRegion chunk (nextMdFreeLoop chunk left i blockOff bitOff bits).1
          (nextMdFreeLoop chunk left i blockOff bitOff bits).2) := by
  induction left generalizing i blockOff bitOff bits with
  | zero =>
      refine ⟨le_rfl, fun _ cause => ?_⟩
      obtain ⟨touches, clear, edge⟩ := walking.carried (cause.resolve_left (lt_irrefl 0))
      have whole : i * blockBits = chunk.mapBits := by
        rw [show i = chunk.nrBlocks by omega]
        rfl
      exact ⟨by simp only [nextMdFreeLoop]; omega, clear, fun _ => edge, fun lt => by
        simp only [nextMdFreeLoop] at lt
        omega⟩
  | succ left ih =>
      have below : i < chunk.nrBlocks := by omega
      have summary := ok i below
      have room := block_end below
      have next : (i + 1) * blockBits = i * blockBits + blockBits := Nat.succ_mul i blockBits
      obtain ⟨leftIn, leftClear, leftStop⟩ := leftRun_iff.mp summary.left
      unfold nextMdFreeLoop
      simp only
      split
      · rename_i carrying
        obtain ⟨touches, clear, edge⟩ := walking.carried carrying
        have grown : Clear chunk.allocMap bitOff (bitOff + (bits + (chunk.mdBlocks i).leftFree)) :=
          (clear.join (Clear.of_view leftClear) (by omega)).mono le_rfl (by omega)
        split
        · rename_i whole
          have further : Walking chunk (i + 1) blockOff bitOff (bits + (chunk.mdBlocks i).leftFree) :=
            ⟨fun _ => ⟨by omega, grown, edge⟩, fun none_carried => by omega⟩
          obtain ⟨le, region⟩ := ih (by omega) further
          exact ⟨le, fun lt _ => region lt (.inr (by omega))⟩
        · rename_i part
          refine ⟨le_rfl, fun _ _ => ⟨by omega, grown, fun _ => edge, fun _ => ?_⟩⟩
          have after := leftStop (by omega)
          rw [blockView] at after
          rwa [show bitOff + (bits + (chunk.mdBlocks i).leftFree) = i * blockBits + (chunk.mdBlocks i).leftFree by omega]
      · rename_i fresh
        obtain ⟨inBlock, start, entry⟩ := walking.entered (by omega)
        split
        · rename_i hint
          obtain ⟨hinted, seen, short⟩ := hint
          refine ⟨?_, fun _ _ => hint_region summary below entry hinted seen short⟩
          simp only [pcpuBlockOffToOff]
          omega
        · obtain ⟨after, within, clear, edge⟩ := right_region summary entry inBlock
          have further : Walking chunk (i + 1) 0 ((i + 1) * blockBits - (chunk.mdBlocks i).rightFree)
              (chunk.mdBlocks i).rightFree := by
            refine ⟨fun _ => ⟨by omega, by rwa [Nat.sub_add_cancel within], edge⟩, fun empty => ?_⟩
            refine ⟨by decide, by omega, ?_⟩
            rwa [empty] at edge
          obtain ⟨le, region⟩ := ih (by omega) further
          refine ⟨by omega, fun lt _ => ?_⟩
          by_cases last : 0 < left ∨ (chunk.mdBlocks i).rightFree ≠ 0
          · exact region lt last
          · -- the last block ends with a set bit: the walk is at the end of the map
            push Not at last
            obtain ⟨done, empty⟩ := last
            obtain rfl : left = 0 := by omega
            have whole : (i + 1) * blockBits = chunk.mapBits := by
              rw [show i + 1 = chunk.nrBlocks by omega]
              rfl
            simp only [nextMdFreeLoop] at lt
            omega

/-- Every region of the walk is a free run of the map, at or after the place where it began. -/
theorem nextMdFreeRegion_region {bitOff : Nat} (ok : BlocksOk chunk.nrBlocks chunk.allocMap chunk.mdBlocks)
    (entry : bitOff < chunk.mapBits → Edge chunk.allocMap bitOff) :
    bitOff ≤ (pcpuNextMdFreeRegion chunk bitOff).1 ∧
      ((pcpuNextMdFreeRegion chunk bitOff).1 < chunk.mapBits →
        FreeRegion chunk (pcpuNextMdFreeRegion chunk bitOff).1 (pcpuNextMdFreeRegion chunk bitOff).2) := by
  unfold pcpuNextMdFreeRegion pcpuOffToBlockIndex pcpuOffToBlockOff
  simp only
  have parts : bitOff / blockBits * blockBits + bitOff % blockBits = bitOff := Nat.div_add_mod' bitOff blockBits
  rcases Nat.lt_or_ge (bitOff / blockBits) chunk.nrBlocks with within | past
  · have below : bitOff < chunk.mapBits := (Nat.div_lt_iff_lt_mul (by decide)).mp within
    have walking : Walking chunk (bitOff / blockBits) (bitOff % blockBits) bitOff 0 := by
      refine ⟨fun carried => absurd rfl carried, fun _ => ⟨Nat.mod_lt _ (by decide), by omega, ?_⟩⟩
      rw [parts]
      exact entry below
    obtain ⟨le, region⟩ := nextMdFreeLoop_region ok (Nat.add_sub_cancel' within.le) walking
    exact ⟨le, fun lt => region lt (.inl (by omega))⟩
  · have beyond : chunk.mapBits ≤ bitOff := by
      have scaled := Nat.mul_le_mul_right blockBits past
      have size : chunk.mapBits = chunk.nrBlocks * blockBits := rfl
      omega
    rw [Nat.sub_eq_zero_of_le past]
    refine ⟨le_rfl, fun lt => ?_⟩
    simp only [nextMdFreeLoop] at lt
    omega

end Walk

/-! ## The hint -/

/-- The hint is a free run of the map, if it is not empty. -/
def HintOk (chunk : PcpuChunk) : Prop :=
  0 < chunk.contigBits → chunk.contigBitsStart + chunk.contigBits ≤ chunk.mapBits ∧
    Clear chunk.allocMap chunk.contigBitsStart (chunk.contigBitsStart + chunk.contigBits)

/-- The hint begins after a set bit, or at the start of the map. -/
def HintEdge (chunk : PcpuChunk) : Prop := 0 < chunk.contigBits → Edge chunk.allocMap chunk.contigBitsStart

/-- The hint after an update is the old one or the area of the update. -/
theorem chunkUpdate_cases (chunk : PcpuChunk) (bitOff bits : Nat) :
    pcpuChunkUpdate chunk bitOff bits = chunk ∨
      (0 < bits ∧ pcpuChunkUpdate chunk bitOff bits = chunk.withHint bitOff bits chunk.nrEmptyPopPages) ∨
      (pcpuChunkUpdate chunk bitOff bits).contigBits = 0 := by
  unfold pcpuChunkUpdate
  split
  · rename_i more
    exact .inr (.inl ⟨by omega, rfl⟩)
  · split
    · rename_i tie
      rcases Nat.eq_zero_or_pos chunk.contigBits with zero | pos
      · exact .inr (.inr zero)
      · refine .inr (.inl ⟨by omega, ?_⟩)
        rw [tie.1]
        rfl
    · exact .inl rfl

theorem chunkUpdate_hintOk {chunk : PcpuChunk} {bitOff bits : Nat} (ok : HintOk chunk)
    (inside : 0 < bits → bitOff + bits ≤ chunk.mapBits) (clear : Clear chunk.allocMap bitOff (bitOff + bits)) :
    HintOk (pcpuChunkUpdate chunk bitOff bits) := by
  rcases chunkUpdate_cases chunk bitOff bits with same | ⟨pos, moved⟩ | empty
  · rwa [same]
  · rw [moved]
    exact fun _ => ⟨inside pos, clear⟩
  · exact fun pos => absurd empty (by omega)

theorem chunkUpdate_hintEdge {chunk : PcpuChunk} {bitOff bits : Nat} (ok : HintEdge chunk)
    (edge : 0 < bits → Edge chunk.allocMap bitOff) : HintEdge (pcpuChunkUpdate chunk bitOff bits) := by
  rcases chunkUpdate_cases chunk bitOff bits with same | ⟨pos, moved⟩ | empty
  · rwa [same]
  · rw [moved]
    exact fun _ => edge pos
  · exact fun pos => absurd empty (by omega)

theorem withHint_blocks {chunk : PcpuChunk} {start bits pages : Nat}
    (ok : BlocksOk chunk.nrBlocks chunk.allocMap chunk.mdBlocks) :
    BlocksOk (chunk.withHint start bits pages).nrBlocks (chunk.withHint start bits pages).allocMap
      (chunk.withHint start bits pages).mdBlocks := ok

theorem refreshLoop_hintOk {chunk : PcpuChunk} {fuel bitOff pages : Nat}
    (ok : BlocksOk chunk.nrBlocks chunk.allocMap chunk.mdBlocks) (hint : HintOk chunk) (edge : HintEdge chunk)
    (entry : bitOff < chunk.mapBits → Edge chunk.allocMap bitOff) :
    HintOk (refreshLoop fuel chunk bitOff pages).1 ∧ HintEdge (refreshLoop fuel chunk bitOff pages).1 := by
  induction fuel generalizing chunk bitOff pages with
  | zero => exact ⟨hint, edge⟩
  | succ fuel ih =>
      obtain ⟨-, regions⟩ := nextMdFreeRegion_region ok entry
      unfold refreshLoop
      simp only
      split
      · rename_i below
        have region := regions below
        have hint' := chunkUpdate_hintOk hint (fun _ => region.inside) region.clear
        have edge' := chunkUpdate_hintEdge edge region.edge
        obtain ⟨a, b, updated⟩ := chunkUpdate_hint chunk (pcpuNextMdFreeRegion chunk bitOff).1
          (pcpuNextMdFreeRegion chunk bitOff).2
        rw [updated] at hint' edge' ⊢
        apply ih (withHint_blocks ok) hint' edge'
        intro further _
        exact region.stop (Nat.lt_of_succ_lt further)
      · exact ⟨hint, edge⟩

/-- A refresh leaves a hint that is a whole free run of the map. -/
theorem refreshHint_hintOk {chunk : PcpuChunk} (ok : ChunkOk chunk) :
    HintOk (pcpuChunkRefreshHint chunk) ∧ HintEdge (pcpuChunkRefreshHint chunk) := by
  have entry : chunk.firstBit < chunk.mapBits → Edge chunk.allocMap chunk.firstBit :=
    fun below pos => ok.first _ (by omega) (by omega)
  exact @refreshLoop_hintOk { chunk with contigBits := 0 } _ _ _ ok.blocks
    (fun pos => absurd pos (lt_irrefl 0)) (fun pos => absurd pos (lt_irrefl 0)) entry

end Miracle.Percpu
