import Miracle.Percpu.Blocks

/-! # The summaries of all blocks of a chunk

An area of the chunk meets its first and its last block in a part and the blocks between in
whole, so an allocation or a free keeps every block's summary right.  The chunk's own hint is
left to whatever the update made of it.
-/

namespace Miracle.Percpu

open BitScan

/-- The bits of one block of a map. -/
def blockView (m : Bitmap) (i : Nat) : Bitmap := fun j => m (i * blockBits + j)

/-- Every block's summary agrees with the map. -/
def BlocksOk (nrBlocks : Nat) (m : Bitmap) (blocks : Nat → PcpuBlockMd) : Prop :=
  ∀ i, i < nrBlocks → BlockOk (blockView m i) (blocks i)

/-! ## What the hint updates leave alone -/

/-- The chunk with another hint. -/
def PcpuChunk.withHint (chunk : PcpuChunk) (start bits pages : Nat) : PcpuChunk :=
  { chunk with contigBitsStart := start, contigBits := bits, nrEmptyPopPages := pages }

theorem chunkUpdate_hint (chunk : PcpuChunk) (bitOff bits : Nat) :
    ∃ a b, pcpuChunkUpdate chunk bitOff bits = chunk.withHint a b chunk.nrEmptyPopPages := by
  unfold pcpuChunkUpdate
  split
  · exact ⟨_, _, rfl⟩
  · split
    · exact ⟨_, _, rfl⟩
    · exact ⟨_, _, rfl⟩

theorem refreshLoop_hint (fuel : Nat) (chunk : PcpuChunk) (bitOff pages : Nat) :
    ∃ a b, (refreshLoop fuel chunk bitOff pages).1 = chunk.withHint a b chunk.nrEmptyPopPages := by
  induction fuel generalizing chunk bitOff pages with
  | zero => exact ⟨_, _, rfl⟩
  | succ fuel ih =>
      unfold refreshLoop
      simp only
      split
      · obtain ⟨a, b, updated⟩ := chunkUpdate_hint chunk (pcpuNextMdFreeRegion chunk bitOff).1
          (pcpuNextMdFreeRegion chunk bitOff).2
        rw [updated]
        obtain ⟨a', b', rest⟩ := ih (chunk.withHint a b chunk.nrEmptyPopPages) _ _
        exact ⟨a', b', rest⟩
      · exact ⟨_, _, rfl⟩

theorem refreshHint_hint (chunk : PcpuChunk) : ∃ a b n, pcpuChunkRefreshHint chunk = chunk.withHint a b n := by
  obtain ⟨a, b, looped⟩ := refreshLoop_hint (chunk.mapBits + 1) { chunk with contigBits := 0 } chunk.firstBit 0
  refine ⟨a, b, (refreshLoop (chunk.mapBits + 1) { chunk with contigBits := 0 } chunk.firstBit 0).2, ?_⟩
  simp only [pcpuChunkRefreshHint, looped]
  rfl

theorem hintAlloc_hint (chunk : PcpuChunk) (bitOff bits : Nat) :
    ∃ a b n, pcpuBlockUpdateHintAlloc chunk bitOff bits =
      { chunk with mdBlocks := allocBlocks chunk bitOff bits }.withHint a b n := by
  unfold pcpuBlockUpdateHintAlloc
  simp only
  split
  · exact refreshHint_hint _
  · exact ⟨_, _, _, rfl⟩

/-- The ends of the free run that a freed area becomes a part of, in its first and last block. -/
def mergedStart (chunk : PcpuChunk) (bitOff : Nat) : Nat :=
  freeStart (pcpuIndexAllocMap chunk (pcpuOffToBlockIndex bitOff)) (pcpuOffToBlockOff bitOff)
    (chunk.mdBlocks (pcpuOffToBlockIndex bitOff))

def mergedStop (chunk : PcpuChunk) (last : Nat) : Nat :=
  freeStop (pcpuIndexAllocMap chunk (pcpuOffToBlockIndex last)) (pcpuOffToBlockOff last + 1)
    (chunk.mdBlocks (pcpuOffToBlockIndex last))

/-- The summaries after a free. -/
def freedBlocks (chunk : PcpuChunk) (bitOff bits : Nat) : Nat → PcpuBlockMd :=
  freeBlocks chunk (pcpuOffToBlockIndex bitOff) (pcpuOffToBlockIndex (bitOff + bits - 1))
    (mergedStart chunk bitOff) (mergedStop chunk (bitOff + bits - 1))

def PcpuChunk.withFreed (chunk : PcpuChunk) (bitOff bits : Nat) : PcpuChunk :=
  { chunk with mdBlocks := freedBlocks chunk bitOff bits }

theorem hintFree_eq (chunk : PcpuChunk) (bitOff bits : Nat) :
    pcpuBlockUpdateHintFree chunk bitOff bits =
      if align (mergedStart chunk bitOff) blockBits <
            mergedStop chunk (bitOff + bits - 1) / blockBits * blockBits ∨
          pcpuOffToBlockIndex bitOff ≠ pcpuOffToBlockIndex (bitOff + bits - 1) then
        pcpuChunkRefreshHint (chunk.withFreed bitOff bits)
      else
        pcpuChunkUpdate (chunk.withFreed bitOff bits)
          (pcpuBlockOffToOff (pcpuOffToBlockIndex bitOff) (mergedStart chunk bitOff))
          (freedBlocks chunk bitOff bits (pcpuOffToBlockIndex bitOff)).contigHint := rfl

theorem hintFree_hint (chunk : PcpuChunk) (bitOff bits : Nat) :
    ∃ a b n, pcpuBlockUpdateHintFree chunk bitOff bits =
      (chunk.withFreed bitOff bits).withHint a b n := by
  rw [hintFree_eq]
  split
  · exact refreshHint_hint _
  · obtain ⟨a, b, updated⟩ := chunkUpdate_hint (chunk.withFreed bitOff bits) _ _
    exact ⟨a, b, _, updated⟩

/-! ## Taking an area of the chunk -/

theorem blockView_set {m : Bitmap} {bitOff bits i s n j : Nat}
    (place : (bitOff ≤ i * blockBits + j ∧ i * blockBits + j < bitOff + bits) ↔ (s ≤ j ∧ j < s + n)) :
    blockView (bitmapSet m bitOff bits) i j = bitmapSet (blockView m i) s n j := by
  simp only [blockView, bitmapSet, place]

theorem blockView_clear {m : Bitmap} {bitOff bits i s n j : Nat}
    (place : (bitOff ≤ i * blockBits + j ∧ i * blockBits + j < bitOff + bits) ↔ (s ≤ j ∧ j < s + n)) :
    blockView (bitmapClear m bitOff bits) i j = bitmapClear (blockView m i) s n j := by
  simp only [blockView, bitmapClear, place]

theorem Clear.view {m : Bitmap} {s e i s' e' : Nat} (clear : Clear m s e) (lower : s ≤ i * blockBits + s')
    (upper : i * blockBits + e' ≤ e) : Clear (blockView m i) s' e' :=
  fun j lo hi => clear _ (by omega) (by omega)

theorem allocBlocks_ok {chunk : PcpuChunk} {m : Bitmap} {bitOff bits : Nat}
    (ok : BlocksOk chunk.nrBlocks m chunk.mdBlocks) (taken : chunk.allocMap = bitmapSet m bitOff bits)
    (clear : Clear m bitOff (bitOff + bits)) (pos : 0 < bits) :
    BlocksOk chunk.nrBlocks chunk.allocMap (allocBlocks chunk bitOff bits) := by
  intro i below
  have view : pcpuIndexAllocMap chunk i = blockView (bitmapSet m bitOff bits) i := by rw [← taken]; rfl
  have summary := ok i below
  rw [taken]
  simp only [allocBlocks, pcpuOffToBlockIndex, pcpuOffToBlockOff, view]
  split
  · rename_i start
    by_cases same : bitOff / blockBits = (bitOff + bits - 1) / blockBits
    · apply allocFirst_blockOk summary (e := (bitOff + bits - 1) % blockBits + 1)
      · exact Clear.view clear (by unfold blockBits at *; omega) (by unfold blockBits at *; omega)
      · unfold blockBits at *; omega
      · unfold blockBits at *; omega
      · exact fun j lt => blockView_set (by unfold blockBits at *; omega)
      · exact .inl ⟨beq_iff_eq.mpr same, rfl, by unfold blockBits at *; omega⟩
    · apply allocFirst_blockOk summary (e := blockBits)
      · exact Clear.view clear (by unfold blockBits at *; omega) (by unfold blockBits at *; omega)
      · unfold blockBits at *; omega
      · exact le_rfl
      · exact fun j lt => blockView_set (by unfold blockBits at *; omega)
      · exact .inr ⟨beq_eq_false_iff_ne.mpr same, rfl, by unfold blockBits at *; omega⟩
  · split
    · apply allocInner_blockOk
      exact fun j lt => bitmapSet_inside (by unfold blockBits at *; omega)
    · split
      · apply allocLast_blockOk summary
        · exact Clear.view clear (by unfold blockBits at *; omega) (by unfold blockBits at *; omega)
        · unfold blockBits at *; omega
        · unfold blockBits at *; omega
        · exact fun j lt => blockView_set (by unfold blockBits at *; omega)
      · apply summary.congr
        intro j lt
        have outside : ¬(bitOff ≤ i * blockBits + j ∧ i * blockBits + j < bitOff + bits) := by
          unfold blockBits at *
          omega
        exact (bitmapSet_outside outside).symm

/-! ## Giving an area of the chunk back -/

section Merge

variable {chunk : PcpuChunk} {m : Bitmap} {bitOff bits : Nat}

/-- The free run around a freed area begins behind a set bit of its first block. -/
theorem mergedStart_spec (ok : BlocksOk chunk.nrBlocks m chunk.mdBlocks)
    (given : chunk.allocMap = bitmapClear m bitOff bits) (pos : 0 < bits) (inside : bitOff + bits ≤ chunk.mapBits) :
    mergedStart chunk bitOff ≤ bitOff % blockBits ∧
      Clear (blockView chunk.allocMap (bitOff / blockBits)) (mergedStart chunk bitOff) (bitOff % blockBits) ∧
      (0 < mergedStart chunk bitOff →
        blockView chunk.allocMap (bitOff / blockBits) (mergedStart chunk bitOff - 1) = true) := by
  have fits : bitOff + bits ≤ chunk.nrBlocks * blockBits := inside
  apply freeStart_spec (ok (bitOff / blockBits) (by unfold blockBits at *; omega))
  · exact (Nat.mod_lt bitOff (by decide)).le
  · intro j lt
    have outside : ¬(bitOff ≤ bitOff / blockBits * blockBits + j ∧
        bitOff / blockBits * blockBits + j < bitOff + bits) := by
      unfold pcpuOffToBlockOff blockBits at *
      omega
    rw [pcpuIndexAllocMap, given]
    exact bitmapClear_outside outside

/-- And it ends before a set bit of its last block. -/
theorem mergedStop_spec (ok : BlocksOk chunk.nrBlocks m chunk.mdBlocks)
    (given : chunk.allocMap = bitmapClear m bitOff bits) (pos : 0 < bits) (inside : bitOff + bits ≤ chunk.mapBits) :
    (bitOff + bits - 1) % blockBits + 1 ≤ mergedStop chunk (bitOff + bits - 1) ∧
      mergedStop chunk (bitOff + bits - 1) ≤ blockBits ∧
      Clear (blockView chunk.allocMap ((bitOff + bits - 1) / blockBits)) ((bitOff + bits - 1) % blockBits + 1)
        (mergedStop chunk (bitOff + bits - 1)) ∧
      (mergedStop chunk (bitOff + bits - 1) < blockBits →
        blockView chunk.allocMap ((bitOff + bits - 1) / blockBits) (mergedStop chunk (bitOff + bits - 1)) = true) := by
  have fits : bitOff + bits ≤ chunk.nrBlocks * blockBits := inside
  apply freeStop_spec (ok ((bitOff + bits - 1) / blockBits) (by unfold blockBits at *; omega))
  · exact Nat.mod_lt (bitOff + bits - 1) (by decide)
  · intro j lo lt
    have outside : ¬(bitOff ≤ (bitOff + bits - 1) / blockBits * blockBits + j ∧
        (bitOff + bits - 1) / blockBits * blockBits + j < bitOff + bits) := by
      unfold pcpuOffToBlockOff blockBits at *
      omega
    rw [pcpuIndexAllocMap, given]
    exact bitmapClear_outside outside

/-- The bits of the freed area are clear in every block. -/
theorem freed_view (given : chunk.allocMap = bitmapClear m bitOff bits) {i j : Nat} (lo : bitOff ≤ i * blockBits + j)
    (hi : i * blockBits + j < bitOff + bits) : blockView chunk.allocMap i j = false := by
  rw [given]
  exact bitmapClear_inside ⟨lo, hi⟩

/-- A freed area inside one block becomes a part of this free run of the block. -/
theorem merged_run (ok : BlocksOk chunk.nrBlocks m chunk.mdBlocks)
    (given : chunk.allocMap = bitmapClear m bitOff bits) (pos : 0 < bits) (inside : bitOff + bits ≤ chunk.mapBits)
    (same : bitOff / blockBits = (bitOff + bits - 1) / blockBits) :
    MaximalRun (blockView chunk.allocMap (bitOff / blockBits)) blockBits (mergedStart chunk bitOff)
      (mergedStop chunk (bitOff + bits - 1)) := by
  obtain ⟨startLe, startClear, startEdge⟩ := mergedStart_spec ok given pos inside
  obtain ⟨stopGe, stopIn, stopClear, stopEdge⟩ := mergedStop_spec ok given pos inside
  rw [← same] at stopClear stopEdge
  refine ⟨by unfold blockBits at *; omega, stopIn, ?_, startEdge, stopEdge⟩
  intro j lo hi
  by_cases before : j < bitOff % blockBits
  · exact startClear j lo before
  · by_cases after : (bitOff + bits - 1) % blockBits + 1 ≤ j
    · exact stopClear j after hi
    · exact freed_view given (by unfold blockBits at *; omega) (by unfold blockBits at *; omega)

theorem freedBlocks_ok (ok : BlocksOk chunk.nrBlocks m chunk.mdBlocks)
    (given : chunk.allocMap = bitmapClear m bitOff bits) (pos : 0 < bits) (inside : bitOff + bits ≤ chunk.mapBits) :
    BlocksOk chunk.nrBlocks chunk.allocMap (freedBlocks chunk bitOff bits) := by
  intro i below
  have summary := ok i below
  obtain ⟨startLe, startClear, startEdge⟩ := mergedStart_spec ok given pos inside
  obtain ⟨stopGe, stopIn, stopClear, stopEdge⟩ := mergedStop_spec ok given pos inside
  have local_bits {s k : Nat} (place : ∀ j, j < blockBits →
      ((bitOff ≤ i * blockBits + j ∧ i * blockBits + j < bitOff + bits) ↔ (s ≤ j ∧ j < s + k))) :
      ∀ j, j < blockBits → blockView chunk.allocMap i j = bitmapClear (blockView m i) s k j := by
    intro j lt
    rw [given]
    exact blockView_clear (place j lt)
  change BlockOk (blockView chunk.allocMap i) (
    if i = bitOff / blockBits then
      pcpuBlockUpdate (chunk.mdBlocks i) (mergedStart chunk bitOff)
        (if bitOff / blockBits = (bitOff + bits - 1) / blockBits then mergedStop chunk (bitOff + bits - 1) else blockBits)
    else if i = (bitOff + bits - 1) / blockBits then
      pcpuBlockUpdate (chunk.mdBlocks i) 0 (mergedStop chunk (bitOff + bits - 1))
    else if bitOff / blockBits < i ∧ i < (bitOff + bits - 1) / blockBits then freeInnerBlock
    else chunk.mdBlocks i)
  split
  · rename_i first
    subst first
    split
    · rename_i same
      have merged := merged_run ok given pos inside same
      exact freed_blockOk (s := bitOff % blockBits) (k := bits) summary
        (local_bits fun j lt => by unfold blockBits at *; omega) merged startLe (by unfold blockBits at *; omega)
    · rename_i spans
      refine freed_blockOk (s := bitOff % blockBits) (k := blockBits - bitOff % blockBits) summary
        (local_bits fun j lt => by unfold blockBits at *; omega) ?_ startLe (by unfold blockBits at *; omega)
      refine ⟨by unfold blockBits at *; omega, le_rfl, ?_, startEdge, fun lt => absurd lt (lt_irrefl _)⟩
      intro j lo hi
      by_cases before : j < bitOff % blockBits
      · exact startClear j lo before
      · exact freed_view given (by unfold blockBits at *; omega) (by unfold blockBits at *; omega)
  · rename_i later
    split
    · rename_i last
      subst last
      refine freed_blockOk (s := 0) (k := (bitOff + bits - 1) % blockBits + 1) summary
        (local_bits fun j lt => by unfold blockBits at *; omega) ?_ le_rfl (by unfold blockBits at *; omega)
      refine ⟨by unfold blockBits at *; omega, stopIn, ?_, fun none_before => absurd none_before (lt_irrefl 0), stopEdge⟩
      intro j lo hi
      by_cases after : (bitOff + bits - 1) % blockBits + 1 ≤ j
      · exact stopClear j after hi
      · exact freed_view given (by unfold blockBits at *; omega) (by unfold blockBits at *; omega)
    · split
      · exact init_blockOk (fun j lo hi => freed_view given (by unfold blockBits at *; omega)
          (by unfold blockBits at *; omega)) i
      · apply summary.congr
        intro j lt
        have outside : ¬(bitOff ≤ i * blockBits + j ∧ i * blockBits + j < bitOff + bits) := by
          unfold blockBits at *
          omega
        rw [given]
        exact (bitmapClear_outside outside).symm

end Merge

end Miracle.Percpu
