import Miracle.Percpu.Creation

/-! # When the chunk's hint is a free run

The hint is renewed only when an area is taken inside it, when a free crosses blocks or empties
one, and else moved to the start of the freed run with the length of the block's longest run.
So it goes wrong in two ways: an area is taken that begins below the hint and reaches into it,
and a free moves the hint to a run that is shorter than the block's longest.
-/

namespace Miracle.Percpu

open BitScan

/-- An area that begins below the hint and reaches into it. -/
def ReachesHint (chunk : PcpuChunk) (bitOff bits : Nat) : Prop :=
  0 < chunk.contigBits ∧ bitOff < chunk.contigBitsStart ∧ chunk.contigBitsStart < bitOff + bits

/-- A free run of `bits` bits at `bitOff` would become the hint. -/
def MovesHint (chunk : PcpuChunk) (bitOff bits : Nat) : Prop :=
  chunk.contigBits < bits ∨ (bits = chunk.contigBits ∧ chunk.contigBitsStart ≠ 0 ∧
    (bitOff = 0 ∨ ffs 64 chunk.contigBitsStart < ffs 64 bitOff))

/-- The condition on the step: no area is taken that begins below the hint and reaches into
    it; and when an area inside one block is given back and the block is not empty then, the free
    run of the block that it becomes a part of is as long as the block's longest free run (going
    on into the next block if it has to), or the hint does not move. -/
def HintSafe (s : State) : Op → Prop
  | .alloc size a atomic => ∀ bitOff bits, placement s.chunk size a atomic = some (bitOff, bits) →
      ¬ReachesHint s.chunk bitOff bits
  | .free area =>
      let bitOff := area.off / minAllocSize
      let bits := area.size / minAllocSize
      let index := bitOff / blockBits
      let m := bitmapClear s.chunk.allocMap bitOff bits
      index = (bitOff + bits - 1) / blockBits → ∀ start stop longest,
        MaximalRun (blockView m index) blockBits start stop → start ≤ bitOff % blockBits →
        bitOff % blockBits + bits ≤ stop → Longest (blockView m index) blockBits longest →
        ¬(start = 0 ∧ stop = blockBits) → MovesHint s.chunk (index * blockBits + start) longest →
        index * blockBits + start + longest ≤ s.chunk.mapBits ∧
          Clear m (index * blockBits + start) (index * blockBits + start + longest)
  | .populate _ => True
  | .elsewhere _ => True

/-! ## Taking an area -/

theorem takeArea_hintOk {chunk : PcpuChunk} {bitOff bits : Nat} (ok : ChunkOk chunk) (hint : HintOk chunk)
    (available : Available chunk bitOff bits) :
    HintOk (takeArea chunk bitOff bits) ↔ ¬ReachesHint chunk bitOff bits := by
  have pos := available.pos
  have blocks := @allocBlocks_ok (takeBits chunk bitOff bits) chunk.allocMap bitOff bits ok.blocks rfl
    available.clear available.pos
  have first : ∀ i, i < (takeBits chunk bitOff bits).firstBit → i < chunk.mapBits →
      bitmapSet chunk.allocMap bitOff bits i = true := by
    obtain ⟨a, b, n, updated⟩ := hintAlloc_hint (takeBits chunk bitOff bits) bitOff bits
    have after := (takeArea_ok ok available).first
    rwa [takeArea, updated] at after
  unfold takeArea pcpuBlockUpdateHintAlloc ReachesHint
  simp only
  split
  · rename_i inHint
    have inHint' : chunk.contigBitsStart ≤ bitOff := inHint.1
    refine ⟨fun _ => by omega, fun _ => ?_⟩
    exact (@refreshHint_hintOk
      { takeBits chunk bitOff bits with mdBlocks := allocBlocks (takeBits chunk bitOff bits) bitOff bits }
      ⟨blocks, first⟩).1
  · rename_i miss
    have miss' : ¬(chunk.contigBitsStart ≤ bitOff ∧ bitOff < chunk.contigBitsStart + chunk.contigBits) := miss
    constructor
    · -- the hint stays, and its first bit is taken
      rintro safe ⟨hinted, lower, upper⟩
      obtain ⟨-, run⟩ := safe hinted
      have unset : bitmapSet chunk.allocMap bitOff bits chunk.contigBitsStart = false :=
        run chunk.contigBitsStart le_rfl (Nat.lt_add_of_pos_right hinted)
      rw [bitmapSet_inside (by omega)] at unset
      exact absurd unset (by decide)
    · intro away hinted
      have hinted' : 0 < chunk.contigBits := hinted
      obtain ⟨inside, run⟩ := hint hinted'
      exact ⟨inside, run.bitmapSet (by omega)⟩

/-! ## Giving an area back -/

theorem chunkUpdate_moves {chunk : PcpuChunk} {bitOff bits : Nat} :
    (MovesHint chunk bitOff bits → (pcpuChunkUpdate chunk bitOff bits).contigBitsStart = bitOff ∧
      (pcpuChunkUpdate chunk bitOff bits).contigBits = bits) ∧
    (¬MovesHint chunk bitOff bits → pcpuChunkUpdate chunk bitOff bits = chunk) := by
  unfold MovesHint pcpuChunkUpdate
  constructor
  · rintro (more | ⟨same, place⟩)
    · rw [if_pos more]
      exact ⟨rfl, rfl⟩
    · rw [if_neg (by omega), if_pos ⟨same, place⟩]
      exact ⟨rfl, same.symm⟩
  · intro stays
    push Not at stays
    rw [if_neg (by omega), if_neg]
    rintro ⟨same, place, better⟩
    obtain ⟨away, notBetter⟩ := stays.2 same place
    rcases better with zero | more
    · exact away zero
    · omega

/-- The short path of a free is not taken when the block is empty after it. -/
theorem emptied_iff {start stop : Nat} (lower : start < blockBits) (upper : stop ≤ blockBits) :
    align start blockBits < stop / blockBits * blockBits ↔ start = 0 ∧ stop = blockBits := by
  simp only [align, alignMask, blockBits] at *
  omega

/-- What becomes of the hint when an area inside one block is given back and the block is not
    empty then. -/
theorem giveArea_short {chunk : PcpuChunk} {bitOff bits start stop longest : Nat} (ok : ChunkOk chunk) (pos : 0 < bits)
    (inside : bitOff + bits ≤ chunk.mapBits) (same : bitOff / blockBits = (bitOff + bits - 1) / blockBits)
    (run : MaximalRun (blockView (bitmapClear chunk.allocMap bitOff bits) (bitOff / blockBits)) blockBits start stop)
    (lower : start ≤ bitOff % blockBits) (upper : bitOff % blockBits + bits ≤ stop)
    (most : Longest (blockView (bitmapClear chunk.allocMap bitOff bits) (bitOff / blockBits)) blockBits longest)
    (part : ¬(start = 0 ∧ stop = blockBits)) :
    giveArea chunk bitOff bits =
      pcpuChunkUpdate ((giveBits chunk bitOff bits).withFreed bitOff bits)
        (bitOff / blockBits * blockBits + start) longest := by
  have merged := @merged_run (giveBits chunk bitOff bits) chunk.allocMap bitOff bits ok.blocks rfl pos inside same
  obtain ⟨startLe, -⟩ := @mergedStart_spec (giveBits chunk bitOff bits) chunk.allocMap bitOff bits ok.blocks rfl pos inside
  obtain ⟨stopGe, stopIn, -⟩ := @mergedStop_spec (giveBits chunk bitOff bits) chunk.allocMap bitOff bits ok.blocks rfl
    pos inside
  have blocks := @freedBlocks_ok (giveBits chunk bitOff bits) chunk.allocMap bitOff bits ok.blocks rfl pos inside
  have fits : bitOff + bits ≤ chunk.nrBlocks * blockBits := inside
  have summary := blocks (bitOff / blockBits) (show bitOff / blockBits < chunk.nrBlocks by unfold blockBits at *; omega)
  obtain ⟨rfl, rfl⟩ := run.unique merged lower (by omega) startLe (by unfold blockBits at *; omega)
  have length := most.unique summary.longest
  unfold giveArea
  rw [hintFree_eq, if_neg]
  · rw [length]
    rfl
  · have low := Nat.mod_lt bitOff (show 0 < blockBits by decide)
    rintro (emptied | spans)
    · exact part ((emptied_iff (by omega) stopIn).mp emptied)
    · exact spans same

theorem giveArea_hintOk {chunk : PcpuChunk} {bitOff bits : Nat} (ok : ChunkOk chunk) (hint : HintOk chunk)
    (pos : 0 < bits) (inside : bitOff + bits ≤ chunk.mapBits) :
    HintOk (giveArea chunk bitOff bits) ↔
      (bitOff / blockBits = (bitOff + bits - 1) / blockBits → ∀ start stop longest,
        MaximalRun (blockView (bitmapClear chunk.allocMap bitOff bits) (bitOff / blockBits)) blockBits start stop →
        start ≤ bitOff % blockBits → bitOff % blockBits + bits ≤ stop →
        Longest (blockView (bitmapClear chunk.allocMap bitOff bits) (bitOff / blockBits)) blockBits longest →
        ¬(start = 0 ∧ stop = blockBits) → MovesHint chunk (bitOff / blockBits * blockBits + start) longest →
        bitOff / blockBits * blockBits + start + longest ≤ chunk.mapBits ∧
          Clear (bitmapClear chunk.allocMap bitOff bits) (bitOff / blockBits * blockBits + start)
            (bitOff / blockBits * blockBits + start + longest)) := by
  have blocks := @freedBlocks_ok (giveBits chunk bitOff bits) chunk.allocMap bitOff bits ok.blocks rfl pos inside
  constructor
  · intro safe same start stop longest run lower upper most part moves
    rw [giveArea_short ok pos inside same run lower upper most part] at safe
    have moves' : MovesHint ((giveBits chunk bitOff bits).withFreed bitOff bits) _ longest := moves
    obtain ⟨moved, length⟩ := chunkUpdate_moves.1 moves'
    have proper := run.nonempty
    have some_bits : 0 < longest := lt_of_lt_of_le (by omega) (most.le run.inside run.clear)
    have hinted := safe (by rw [length]; exact some_bits)
    obtain ⟨a, b, updated⟩ := chunkUpdate_hint ((giveBits chunk bitOff bits).withFreed bitOff bits)
      (bitOff / blockBits * blockBits + start) longest
    rw [moved, length, updated] at hinted
    exact hinted
  · intro safe
    -- the hint is renewed unless the free is inside one block that it does not empty
    have refreshed : HintOk (pcpuChunkRefreshHint ((giveBits chunk bitOff bits).withFreed bitOff bits)) := by
      refine (refreshHint_hintOk ⟨blocks, fun i lt below => ?_⟩).1
      have lt' : i < min chunk.firstBit bitOff := lt
      change bitmapClear chunk.allocMap bitOff bits i = true
      rw [bitmapClear_outside (by omega)]
      exact ok.first i (by omega) below
    by_cases same : bitOff / blockBits = (bitOff + bits - 1) / blockBits
    · have merged := @merged_run (giveBits chunk bitOff bits) chunk.allocMap bitOff bits ok.blocks rfl pos inside same
      obtain ⟨startLe, -⟩ := @mergedStart_spec (giveBits chunk bitOff bits) chunk.allocMap bitOff bits ok.blocks rfl
        pos inside
      obtain ⟨stopGe, stopIn, -⟩ := @mergedStop_spec (giveBits chunk bitOff bits) chunk.allocMap bitOff bits ok.blocks
        rfl pos inside
      have low := Nat.mod_lt bitOff (show 0 < blockBits by decide)
      have stopGe' : bitOff % blockBits + bits ≤ mergedStop (giveBits chunk bitOff bits) (bitOff + bits - 1) := by
        unfold blockBits at *
        omega
      by_cases whole : mergedStart (giveBits chunk bitOff bits) bitOff = 0 ∧
          mergedStop (giveBits chunk bitOff bits) (bitOff + bits - 1) = blockBits
      · unfold giveArea
        rw [hintFree_eq, if_pos (.inl ((emptied_iff (by omega) stopIn).mpr whole))]
        exact refreshed
      · have fits : bitOff + bits ≤ chunk.nrBlocks * blockBits := inside
        have summary := blocks (bitOff / blockBits)
          (show bitOff / blockBits < chunk.nrBlocks by unfold blockBits at *; omega)
        have conclusion := safe same _ _ _ merged startLe stopGe' summary.longest whole
        rw [giveArea_short ok pos inside same merged startLe stopGe' summary.longest whole]
        have kept : HintOk ((giveBits chunk bitOff bits).withFreed bitOff bits) := fun hinted =>
          ⟨(hint hinted).1, (hint hinted).2.bitmapClear⟩
        by_cases moves : MovesHint chunk (bitOff / blockBits * blockBits + mergedStart (giveBits chunk bitOff bits) bitOff)
            (freedBlocks (giveBits chunk bitOff bits) bitOff bits (bitOff / blockBits)).contigHint
        · obtain ⟨within, clear⟩ := conclusion moves
          exact chunkUpdate_hintOk kept (fun _ => within) clear
        · have moves' : ¬MovesHint ((giveBits chunk bitOff bits).withFreed bitOff bits) _ _ := moves
          rw [chunkUpdate_moves.2 moves']
          exact kept
    · unfold giveArea
      rw [hintFree_eq, if_pos (.inr same)]
      exact refreshed

/-! ## Runs -/

/-- A step keeps the hint a free run exactly when it meets the condition. -/
theorem step_hintOk_iff {s s' : State} (ok : RunOk s) (hint : HintOk s.chunk) (op : Op) (taken : step s op = some s') :
    HintOk s'.chunk ↔ HintSafe s op := by
  cases op with
  | alloc size a atomic =>
      rcases step_alloc ok.chunk.blocks taken with
        ⟨unplaced, rfl⟩ | ⟨request, bitOff, -, placed, available, -, rfl⟩
      · refine ⟨fun _ bitOff bits placed => ?_, fun _ => hint⟩
        rw [unplaced] at placed
        exact absurd placed.symm (Option.some_ne_none _)
      · rw [takeArea_hintOk ok.chunk hint available]
        constructor
        · intro away bitOff' bits' placed'
          obtain ⟨rfl, rfl⟩ := Prod.mk.inj (Option.some.inj (placed.symm.trans placed'))
          exact away
        · exact fun safe => safe _ _ placed
  | free area =>
      simp only [step] at taken
      split at taken
      · rename_i mem
        obtain rfl := Option.some.inj taken
        rw [ok.areas.freed mem]
        obtain ⟨-, units, nonempty⟩ := ok.areas.units area mem
        have pos : 0 < area.size / minAllocSize := Nat.div_pos (Nat.le_of_dvd nonempty units) (by decide)
        exact giveArea_hintOk ok.chunk hint pos (ok.areas.within mem)
      · exact absurd taken.symm (Option.some_ne_none _)
  | populate populated =>
      obtain rfl := Option.some.inj taken
      exact ⟨fun _ => trivial, fun _ => hint⟩
  | elsewhere beyond =>
      obtain rfl := Option.some.inj taken
      refine ⟨fun _ => trivial, fun _ hinted => ?_⟩
      obtain ⟨inside, run⟩ := hint hinted
      refine ⟨inside, fun i lo hi => ?_⟩
      have below : i < s.chunk.mapBits := lt_of_lt_of_le hi inside
      exact (if_pos below).trans (run i lo hi)

/-- In every run whose steps all meet the condition, the hint of every state reached is a run
    of clear bits inside the map. -/
theorem hint_clear_of_safe_run {s : State} (run : Reachable HintSafe s) (hinted : 0 < s.chunk.contigBits) :
    s.chunk.contigBitsStart + s.chunk.contigBits ≤ s.chunk.mapBits ∧
      Clear s.chunk.allocMap s.chunk.contigBitsStart (s.chunk.contigBitsStart + s.chunk.contigBits) := by
  suffices hint : HintOk s.chunk from hint hinted
  clear hinted
  induction run with
  | created h => exact (created_ok h).2.2
  | step op before meets taken ih => exact (step_hintOk_iff (reachable_ok before) ih op taken).mpr meets

theorem hint_clear_after_alloc : ∃ s, runOps freshState [.alloc 4000 4 false] = some s ∧
    s.chunk.contigBitsStart = 1000 ∧ s.chunk.contigBits = 7192 ∧ Clear s.chunk.allocMap 1000 (1000 + 7192) := by
  have ran : (step freshState (.alloc 4000 4 false)).map
      (fun s => (s.chunk.contigBitsStart, s.chunk.contigBits)) = some (1000, 7192) := by decide +kernel
  obtain ⟨s, taken, values⟩ := Option.map_eq_some_iff.mp ran
  obtain ⟨start, bits⟩ := Prod.mk.inj values
  have meets : HintSafe freshState (.alloc 4000 4 false) := fun _ _ _ reaches => Nat.not_lt_zero _ reaches.2.1
  have run : Reachable HintSafe s := freshState_reachable.step _ meets taken
  have clear := (hint_clear_of_safe_run run (by rw [bits]; decide)).2
  rw [start, bits] at clear
  exact ⟨s, by simp [runOps, taken], start, bits, clear⟩

/-- An area between two pages is freed, and then a larger one is taken there: it reaches into
    the hint, which keeps its first hundred bits. -/
theorem hint_left_on_taken_bits : ∃ s, Reachable (fun _ _ => True) s ∧ 0 < s.chunk.contigBits ∧
    ¬Clear s.chunk.allocMap s.chunk.contigBitsStart (s.chunk.contigBitsStart + s.chunk.contigBits) := by
  have ran : (runOps freshState
      [.alloc 4000 4 false, .alloc 96 4 false, .free ⟨4000, 96, 4⟩, .alloc 400 4 false]).map
      (fun s => (s.chunk.contigBitsStart, s.chunk.contigBits, s.chunk.allocMap 1024)) = some (1024, 7168, true) := by
    decide +kernel
  obtain ⟨s, reached, values⟩ := Option.map_eq_some_iff.mp ran
  simp only [Prod.mk.injEq] at values
  obtain ⟨start, bits, taken⟩ := values
  refine ⟨s, reachable_runOps freshState_reachable reached, by omega, fun clear => ?_⟩
  have outside := clear.set_bit_outside taken
  omega

/-! ## A chunk without areas

When the last area of a chunk is given back, the block that it leaves is empty, so the hint is
refreshed.  The scan then finds one region, the whole map, and counts all populated pages.
-/

/-- The hint is the whole map, and all populated pages are counted as empty. -/
structure Whole (chunk : PcpuChunk) : Prop where
  bits : chunk.contigBits = chunk.mapBits
  start : chunk.contigBitsStart = 0
  pages : chunk.nrEmptyPopPages = bitmapWeight chunk.populated chunk.nrPages

variable {chunk : PcpuChunk}

theorem bitmapWeight_zero (m : Bitmap) : bitmapWeight m 0 = 0 := rfl

/-- All pages lie in the whole map. -/
theorem cntPopPages_all : pcpuCntPopPages chunk 0 chunk.mapBits = bitmapWeight chunk.populated chunk.nrPages := by
  have first : (0 * minAllocSize + (pageSize - 1)) / pageSize = 0 := rfl
  have last : (0 + chunk.mapBits) * minAllocSize / pageSize = chunk.nrPages := by
    rw [Nat.zero_add, mapBits_bytes]
    exact Nat.mul_div_cancel _ (by decide)
  simp only [pcpuCntPopPages, first, last, bitmapWeight_zero, Nat.sub_zero]
  split
  · rename_i none
    rw [Nat.le_zero.mp none]
    rfl
  · rfl

section

variable (ok : ChunkOk chunk) (clear : Clear chunk.allocMap 0 chunk.mapBits)

include ok clear

/-- The summary of a block in which all bits are clear. -/
theorem block_empty {i : Nat} (below : i < chunk.nrBlocks) :
    (chunk.mdBlocks i).contigHint = blockBits ∧ (chunk.mdBlocks i).contigHintStart = 0 ∧
      (chunk.mdBlocks i).leftFree = blockBits ∧ (chunk.mdBlocks i).rightFree = blockBits := by
  have summary := ok.blocks i below
  have view : Clear (blockView chunk.allocMap i) 0 blockBits := Clear.view clear (Nat.zero_le _) (block_end below)
  have hint := summary.longest.unique (longest_empty view)
  have inside := summary.inside (by rw [hint]; decide)
  exact ⟨hint, by omega, summary.left.unique (leftRun_empty view), summary.right.unique (rightRun_empty view)⟩

theorem firstBit_zero (some : 0 < chunk.nrPages) : chunk.firstBit = 0 := by
  by_contra away
  have bits : 0 < chunk.mapBits := Nat.mul_pos some (by decide)
  have set := ok.first 0 (by omega) bits
  rw [clear 0 le_rfl bits] at set
  cases set

/-- An area that reaches a block is carried on to the end of the map. -/
theorem nextMdFreeLoop_carry {left i blockOff bitOff bits : Nat} (ends : i + left = chunk.nrBlocks) (carried : bits ≠ 0) :
    nextMdFreeLoop chunk left i blockOff bitOff bits = (bitOff, bits + left * blockBits) := by
  induction left generalizing i bits with
  | zero => simp [nextMdFreeLoop]
  | succ left ih =>
      obtain ⟨-, -, full, -⟩ := block_empty ok clear (by omega : i < chunk.nrBlocks)
      rw [nextMdFreeLoop, if_pos carried, if_pos full, full, ih (by omega) (by omega), Nat.succ_mul]
      refine congrArg _ ?_
      omega

theorem nextMdFreeRegion_whole (some : 0 < chunk.nrPages) : pcpuNextMdFreeRegion chunk 0 = (0, chunk.mapBits) := by
  obtain ⟨left, more⟩ : ∃ left, chunk.nrPages = left + 1 := ⟨chunk.nrPages - 1, by omega⟩
  obtain ⟨hint, start, -, full⟩ := block_empty ok clear some
  have blocks : chunk.nrBlocks - 0 = left + 1 := more
  have whole : ¬ ((chunk.mdBlocks 0).contigHint ≠ 0 ∧ 0 ≤ (chunk.mdBlocks 0).contigHintStart ∧
      (chunk.mdBlocks 0).contigHint + (chunk.mdBlocks 0).contigHintStart < blockBits) := by
    rw [hint, start]
    omega
  have first : pcpuNextMdFreeRegion chunk 0 = nextMdFreeLoop chunk (chunk.nrBlocks - 0) 0 0 0 0 := rfl
  rw [first, blocks, nextMdFreeLoop, if_neg (by decide), if_neg whole, full]
  simp only [Nat.zero_add, Nat.one_mul, Nat.sub_self]
  rw [nextMdFreeLoop_carry ok clear (by rw [PcpuChunk.nrBlocks]; omega) (by decide), PcpuChunk.mapBits, more, Nat.succ_mul,
    Nat.add_comm]

/-- The refresh of a chunk in which all bits are clear. -/
theorem refreshHint_whole (some : 0 < chunk.nrPages) : Whole (pcpuChunkRefreshHint chunk) := by
  have bits : 0 < chunk.mapBits := Nat.mul_pos some (by decide)
  let reset : PcpuChunk := { chunk with contigBits := 0 }
  have ok' : ChunkOk reset := ⟨ok.blocks, ok.first⟩
  have region : pcpuNextMdFreeRegion reset 0 = (0, chunk.mapBits) := nextMdFreeRegion_whole ok' clear some
  have updated : pcpuChunkUpdate reset 0 chunk.mapBits =
      { chunk with contigBits := chunk.mapBits, contigBitsStart := 0 } := if_pos bits
  have behind (c : PcpuChunk) (same : c.nrPages = chunk.nrPages) :
      pcpuNextMdFreeRegion c (0 + chunk.mapBits + 1) = (0 + chunk.mapBits + 1, 0) := by
    have none : c.nrBlocks - pcpuOffToBlockIndex (0 + chunk.mapBits + 1) = 0 := by
      simp only [PcpuChunk.nrBlocks, same, pcpuOffToBlockIndex, PcpuChunk.mapBits, blockBits]
      omega
    rw [pcpuNextMdFreeRegion]
    simp only [none]
    rfl
  obtain ⟨fuel, enough⟩ : ∃ fuel, chunk.mapBits + 1 = fuel + 2 := ⟨chunk.mapBits - 1, by omega⟩
  have loop : refreshLoop (chunk.mapBits + 1) reset 0 0 =
      ({ chunk with contigBits := chunk.mapBits, contigBitsStart := 0 }, 0 + pcpuCntPopPages reset 0 chunk.mapBits) := by
    rw [enough, refreshLoop]
    simp only [region]
    have inside : 0 < reset.mapBits := bits
    rw [if_pos inside, updated, refreshLoop]
    simp only [behind { chunk with contigBits := chunk.mapBits, contigBitsStart := 0 } rfl]
    rw [if_neg]
    change ¬ 0 + chunk.mapBits + 1 < chunk.mapBits
    omega
  have refreshed : pcpuChunkRefreshHint chunk = { chunk with
      contigBits := chunk.mapBits, contigBitsStart := 0, nrEmptyPopPages := 0 + pcpuCntPopPages reset 0 chunk.mapBits } := by
    unfold pcpuChunkRefreshHint
    simp only
    change { (refreshLoop (chunk.mapBits + 1) reset chunk.firstBit 0).1 with
      nrEmptyPopPages := (refreshLoop (chunk.mapBits + 1) reset chunk.firstBit 0).2 } = _
    have first := congrArg (fun bitOff => refreshLoop (chunk.mapBits + 1) reset bitOff 0) (firstBit_zero ok clear some)
    rw [first.trans loop]
  rw [refreshed]
  refine ⟨rfl, rfl, ?_⟩
  change 0 + pcpuCntPopPages reset 0 reset.mapBits = bitmapWeight reset.populated reset.nrPages
  rw [cntPopPages_all, Nat.zero_add]

end

/-- The free of the last area refreshes the hint. -/
theorem giveArea_whole (ok : ChunkOk chunk) {bitOff bits : Nat} (pos : 0 < bits) (inside : bitOff + bits ≤ chunk.mapBits)
    (clear : Clear (bitmapClear chunk.allocMap bitOff bits) 0 chunk.mapBits) : Whole (giveArea chunk bitOff bits) := by
  have fits : bitOff + bits ≤ chunk.nrPages * blockBits := inside
  have some : 0 < chunk.nrPages := by
    by_contra none
    rw [Nat.eq_zero_of_not_pos none] at fits
    omega
  have blocks := @freedBlocks_ok (giveBits chunk bitOff bits) chunk.allocMap bitOff bits ok.blocks rfl pos inside
  have ok' : ChunkOk ((giveBits chunk bitOff bits).withFreed bitOff bits) := by
    refine ⟨blocks, fun i lt below => ?_⟩
    have lt' : i < min chunk.firstBit bitOff := lt
    change bitmapClear chunk.allocMap bitOff bits i = true
    rw [bitmapClear_outside (by omega)]
    exact ok.first i (by omega) below
  have refresh : giveArea chunk bitOff bits = pcpuChunkRefreshHint ((giveBits chunk bitOff bits).withFreed bitOff bits) := by
    unfold giveArea
    rw [hintFree_eq, if_pos]
    by_cases same : bitOff / blockBits = (bitOff + bits - 1) / blockBits
    · left
      have merged := @merged_run (giveBits chunk bitOff bits) chunk.allocMap bitOff bits ok.blocks rfl pos inside same
      have below : bitOff / blockBits < chunk.nrBlocks := by
        simp only [PcpuChunk.nrBlocks, blockBits] at *
        omega
      have view : Clear (blockView (giveBits chunk bitOff bits).allocMap (bitOff / blockBits)) 0 blockBits :=
        Clear.view clear (Nat.zero_le _) (@block_end chunk _ below)
      obtain ⟨startLe, -⟩ := @mergedStart_spec (giveBits chunk bitOff bits) chunk.allocMap bitOff bits ok.blocks rfl pos inside
      have low := Nat.mod_lt bitOff (show 0 < blockBits by decide)
      have proper := merged.nonempty
      have stopIn := merged.inside
      have start : mergedStart (giveBits chunk bitOff bits) bitOff = 0 := by
        by_contra away
        have edge := merged.before (by omega)
        rw [view _ (Nat.zero_le _) (by omega)] at edge
        cases edge
      have stop : mergedStop (giveBits chunk bitOff bits) (bitOff + bits - 1) = blockBits := by
        by_contra short
        have edge := merged.after (by omega)
        rw [view _ (Nat.zero_le _) (by omega)] at edge
        cases edge
      rw [emptied_iff (by omega) stopIn]
      exact ⟨start, stop⟩
    · exact .inr same
  rw [refresh]
  exact refreshHint_whole ok' clear some

end Miracle.Percpu
