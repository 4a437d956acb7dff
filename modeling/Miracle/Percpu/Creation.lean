import Miracle.Percpu.Hint
import Miracle.Percpu.Runs

/-! # Chunks as they are made

The regions of the first chunk need not begin or end at a page, so their chunks hide the bits
before and after.  This uses the same updates as an allocation does.
-/

namespace Miracle.Percpu

open BitScan

/-- A chunk of which only the first `head` and the last `tail` bits are taken. -/
structure Made (chunk : PcpuChunk) (head tail : Nat) : Prop where
  blocks : BlocksOk chunk.nrBlocks chunk.allocMap chunk.mdBlocks
  map : ∀ i, i < chunk.mapBits → (chunk.allocMap i = true ↔ i < head ∨ chunk.mapBits ≤ i + tail)
  first : chunk.firstBit ≤ head
  free : clearBits chunk.allocMap chunk.mapBits + head + tail = chunk.mapBits
  hint : HintOk chunk
  /-- The hint begins where the free bits begin, or at the start of the map. -/
  start : 0 < chunk.contigBits → chunk.contigBitsStart ≤ head

theorem Made.chunkOk {chunk : PcpuChunk} {head tail : Nat} (made : Made chunk head tail) : ChunkOk chunk := by
  refine ⟨made.blocks, fun i lt below => (made.map i below).mpr (.inl ?_)⟩
  have first := made.first
  omega

/-- The sizes that hiding bits leaves alone. -/
structure SameRegion (chunk chunk' : PcpuChunk) : Prop where
  start : chunk'.startOffset = chunk.startOffset
  stop : chunk'.endOffset = chunk.endOffset
  pages : chunk'.nrPages = chunk.nrPages
  free : chunk'.freeBytes = chunk.freeBytes

/-- The maps with the bits before the region hidden. -/
def headBits (chunk : PcpuChunk) : PcpuChunk :=
  { chunk with
    allocMap := bitmapSet chunk.allocMap 0 (chunk.startOffset / minAllocSize)
    boundMap := setBit (setBit chunk.boundMap 0) (chunk.startOffset / minAllocSize)
    firstBit := chunk.startOffset / minAllocSize }

/-- The maps with the bits after the region hidden. -/
def tailBits (chunk : PcpuChunk) (mapSize : Nat) : PcpuChunk :=
  { chunk with
    allocMap := bitmapSet chunk.allocMap (chunk.mapBits - chunk.endOffset / minAllocSize)
      (chunk.endOffset / minAllocSize)
    boundMap := setBit (setBit chunk.boundMap ((chunk.startOffset + mapSize) / minAllocSize)) chunk.mapBits }

theorem hideHead_eq (chunk : PcpuChunk) :
    hideHead chunk = if chunk.startOffset ≠ 0 then
      pcpuBlockUpdateHintAlloc (headBits chunk) 0 (chunk.startOffset / minAllocSize) else chunk := rfl

theorem hideTail_eq (chunk : PcpuChunk) (mapSize : Nat) :
    hideTail chunk mapSize = if chunk.endOffset ≠ 0 then
      pcpuBlockUpdateHintAlloc (tailBits chunk mapSize) (chunk.mapBits - chunk.endOffset / minAllocSize)
        (chunk.endOffset / minAllocSize) else chunk := rfl

theorem hideHead_region (chunk : PcpuChunk) : SameRegion chunk (hideHead chunk) := by
  rw [hideHead_eq]
  split
  · obtain ⟨a, b, n, updated⟩ := hintAlloc_hint (headBits chunk) 0 (chunk.startOffset / minAllocSize)
    rw [updated]
    exact ⟨rfl, rfl, rfl, rfl⟩
  · exact ⟨rfl, rfl, rfl, rfl⟩

theorem hideTail_region (chunk : PcpuChunk) (mapSize : Nat) : SameRegion chunk (hideTail chunk mapSize) := by
  rw [hideTail_eq]
  split
  · obtain ⟨a, b, n, updated⟩ := hintAlloc_hint (tailBits chunk mapSize)
      (chunk.mapBits - chunk.endOffset / minAllocSize) (chunk.endOffset / minAllocSize)
    rw [updated]
    exact ⟨rfl, rfl, rfl, rfl⟩
  · exact ⟨rfl, rfl, rfl, rfl⟩

/-- Hiding bits at an end of the map that are clear. -/
theorem hintAlloc_made {chunk : PcpuChunk} {m : Bitmap} {bitOff bits head tail : Nat}
    (blocks : BlocksOk chunk.nrBlocks m chunk.mdBlocks) (taken : chunk.allocMap = bitmapSet m bitOff bits)
    (clear : Clear m bitOff (bitOff + bits)) (pos : 0 < bits)
    (map : ∀ i, i < chunk.mapBits → (bitmapSet m bitOff bits i = true ↔ i < head ∨ chunk.mapBits ≤ i + tail))
    (first : chunk.firstBit ≤ head)
    (free : clearBits (bitmapSet m bitOff bits) chunk.mapBits + head + tail = chunk.mapBits)
    (hint : ¬(chunk.contigBitsStart ≤ bitOff ∧ bitOff < chunk.contigBitsStart + chunk.contigBits) →
      HintOk chunk ∧ (0 < chunk.contigBits → chunk.contigBitsStart ≤ head)) :
    Made (pcpuBlockUpdateHintAlloc chunk bitOff bits) head tail := by
  have blocks' := allocBlocks_ok blocks taken clear pos
  have chunkOk : ChunkOk { chunk with mdBlocks := allocBlocks chunk bitOff bits } := by
    refine ⟨blocks', fun i lt below => ?_⟩
    change chunk.allocMap i = true
    rw [taken]
    exact (map i below).mpr (.inl (lt.trans_le first))
  unfold pcpuBlockUpdateHintAlloc
  simp only
  split
  · obtain ⟨ok, edge⟩ := refreshHint_hintOk chunkOk
    obtain ⟨a, b, n, updated⟩ := refreshHint_hint { chunk with mdBlocks := allocBlocks chunk bitOff bits }
    rw [updated] at ok edge ⊢
    refine ⟨blocks', ?_, first, ?_, ok, ?_⟩
    · change ∀ i, i < chunk.mapBits → (chunk.allocMap i = true ↔ i < head ∨ chunk.mapBits ≤ i + tail)
      rwa [taken]
    · change clearBits chunk.allocMap chunk.mapBits + head + tail = chunk.mapBits
      rwa [taken]
    · -- a set bit stands before the hint, and after the head none does before the tail
      intro some_bits
      by_contra beyond
      obtain ⟨inside, run⟩ := ok some_bits
      have inside' : a + b ≤ chunk.mapBits := inside
      have beyond' : head < a := not_le.mp beyond
      have some_bits' : 0 < b := some_bits
      have set : chunk.allocMap (a - 1) = true := edge some_bits (show 0 < a by omega)
      have unset : chunk.allocMap a = false := run a le_rfl (Nat.lt_add_of_pos_right some_bits')
      rw [taken] at set unset
      have low := (map (a - 1) (by omega)).mp set
      have high := (map a (by omega)).mpr (.inr (by omega))
      simp [unset] at high
  · rename_i miss
    obtain ⟨ok, start⟩ := hint miss
    refine ⟨blocks', ?_, first, ?_, ok, start⟩
    · change ∀ i, i < chunk.mapBits → (chunk.allocMap i = true ↔ i < head ∨ chunk.mapBits ≤ i + tail)
      rwa [taken]
    · change clearBits chunk.allocMap chunk.mapBits + head + tail = chunk.mapBits
      rwa [taken]

theorem Made.hideHead {chunk : PcpuChunk} (made : Made chunk 0 0) (units : minAllocSize ∣ chunk.startOffset)
    (room : chunk.startOffset / minAllocSize ≤ chunk.mapBits) (hintStart : chunk.contigBitsStart = 0) : Made (hideHead chunk) (chunk.startOffset / minAllocSize) 0 := by
  rw [hideHead_eq]
  split
  · rename_i offset
    have clear : Clear chunk.allocMap 0 (0 + chunk.startOffset / minAllocSize) := by
      intro i lo hi
      have unset := mt (made.map i (by omega)).mp (by omega)
      exact Bool.eq_false_of_not_eq_true unset
    have count := clearBits_set clear (show 0 + chunk.startOffset / minAllocSize ≤ chunk.mapBits by omega)
    have total := made.free
    refine @hintAlloc_made (headBits chunk) _ _ _ _ _ made.blocks rfl clear ?_ ?_ le_rfl
      (show clearBits _ chunk.mapBits + _ + 0 = chunk.mapBits by omega) ?_
    · unfold minAllocSize at *
      omega
    · intro i below
      have below' : i < chunk.mapBits := below
      rw [bitmapSet_true, made.map i below]
      simp only [Nat.zero_le, true_and, Nat.zero_add, Nat.not_lt_zero, false_or, Nat.add_zero]
      exact Iff.rfl
    · intro miss
      have miss' : ¬(chunk.contigBitsStart ≤ 0 ∧ 0 < chunk.contigBitsStart + chunk.contigBits) := miss
      have unhinted : chunk.contigBits = 0 := by omega
      exact ⟨fun hinted => absurd hinted unhinted.not_gt, fun hinted => absurd hinted unhinted.not_gt⟩
  · rename_i offset
    rw [show chunk.startOffset / minAllocSize = 0 by rw [not_not.mp offset]; rfl]
    exact made

theorem Made.hideTail {chunk : PcpuChunk} {head mapSize : Nat} (made : Made chunk head 0)
    (units : minAllocSize ∣ chunk.endOffset) (room : head + chunk.endOffset / minAllocSize ≤ chunk.mapBits) :
    Made (hideTail chunk mapSize) head (chunk.endOffset / minAllocSize) := by
  rw [hideTail_eq]
  split
  · rename_i offset
    have clear : Clear chunk.allocMap (chunk.mapBits - chunk.endOffset / minAllocSize)
        (chunk.mapBits - chunk.endOffset / minAllocSize + chunk.endOffset / minAllocSize) := by
      intro i lo hi
      have unset := mt (made.map i (by omega)).mp (by omega)
      exact Bool.eq_false_of_not_eq_true unset
    have count := clearBits_set clear (show chunk.mapBits - chunk.endOffset / minAllocSize +
      chunk.endOffset / minAllocSize ≤ chunk.mapBits by omega)
    have total := made.free
    refine @hintAlloc_made (tailBits chunk mapSize) _ _ _ _ _ made.blocks rfl clear ?_ ?_ made.first
      (show clearBits _ chunk.mapBits + _ + _ = chunk.mapBits by omega) ?_
    · unfold minAllocSize at *
      omega
    · intro i below
      have below' : i < chunk.mapBits := below
      change _ ↔ _ ∨ chunk.mapBits ≤ _
      rw [bitmapSet_true, made.map i below]
      omega
    · intro miss
      refine ⟨fun pos => ?_, made.start⟩
      have miss' : ¬(chunk.contigBitsStart ≤ chunk.mapBits - chunk.endOffset / minAllocSize ∧
        chunk.mapBits - chunk.endOffset / minAllocSize < chunk.contigBitsStart + chunk.contigBits) := miss
      have pos' : 0 < chunk.contigBits := pos
      obtain ⟨inside, run⟩ := made.hint pos'
      have start := made.start pos'
      exact ⟨inside, run.bitmapSet (by omega)⟩
  · rename_i offset
    rw [show chunk.endOffset / minAllocSize = 0 by rw [not_not.mp offset]; rfl]
    exact made

/-- A chunk whose map is clear, before any bit is hidden. -/
theorem made_zeroed {chunk : PcpuChunk} {beyond : Bitmap} (map : chunk.allocMap = zeroedMap chunk.mapBits beyond)
    (blocks : chunk.mdBlocks = pcpuInitMdBlocks) (first : chunk.firstBit = 0) (start : chunk.contigBitsStart = 0)
    (room : chunk.contigBits ≤ chunk.mapBits) : Made chunk 0 0 := by
  have clear : Clear chunk.allocMap 0 chunk.mapBits := by
    intro i _ below
    rw [map]
    exact if_pos below
  refine ⟨?_, ?_, first.le, ?_, ?_, fun _ => start.le⟩
  · intro i below
    rw [blocks]
    exact init_blockOk (Clear.view clear (Nat.zero_le _) (block_end below)) i
  · intro i below
    rw [clear i (Nat.zero_le i) below]
    simp only [Bool.false_eq_true, false_iff]
    omega
  · rw [clearBits_empty clear]
    omega
  · intro _
    rw [start]
    exact ⟨by omega, clear.mono le_rfl (by omega)⟩

/-- The areas of a chunk that was just made: there are none. -/
theorem Made.areasOk {chunk : PcpuChunk}
    (made : Made chunk (chunk.startOffset / minAllocSize) (chunk.endOffset / minAllocSize))
    (headUnits : minAllocSize ∣ chunk.startOffset) (tailUnits : minAllocSize ∣ chunk.endOffset)
    (room : chunk.startOffset + chunk.endOffset ≤ chunk.nrPages * pageSize)
    (free : chunk.freeBytes = (chunk.nrPages * pageSize - chunk.startOffset - chunk.endOffset : Nat)) :
    AreasOk ⟨chunk, []⟩ := by
  have bytes := mapBits_bytes chunk
  refine ⟨headUnits, tailUnits, room, nofun, nofun, nofun, .nil, ?_, ?_, nofun⟩
  · intro i below
    have below' : i < chunk.mapBits := below
    rw [made.map i below]
    simp only [PcpuChunk.Hidden, PcpuChunk.regionEnd, List.not_mem_nil, false_and, exists_false, or_false]
    unfold minAllocSize at *
    omega
  · have count := made.free
    rw [free]
    change _ = (minAllocSize : Int) * (clearBits chunk.allocMap chunk.mapBits : Nat)
    unfold minAllocSize at *
    omega

theorem later_made (nrPages : Nat) (beyond : Bitmap) : Made (pcpuAllocChunk nrPages beyond) 0 0 :=
  @made_zeroed (pcpuAllocChunk nrPages beyond) beyond rfl rfl rfl rfl le_rfl

/-- The chunk of a region of the first chunk, before it hides what is not of the region. -/
def firstZeroed (tmpAddr mapSize : Nat) (beyond : Bitmap) : PcpuChunk :=
  let startOffset := tmpAddr % pageSize
  let regionSize := align (startOffset + mapSize) pageSize
  let nrPages := regionSize / pageSize
  let chunk : PcpuChunk := {
    freeBytes := mapSize
    contigBits := mapSize / minAllocSize
    contigBitsStart := 0
    allocMap := zeroedMap (nrPages * blockBits) beyond
    boundMap := fun _ => false
    mdBlocks := pcpuInitMdBlocks
    firstBit := 0
    startOffset := startOffset
    endOffset := regionSize - startOffset - mapSize
    nrPages := nrPages
    nrEmptyPopPages := 0
    populated := fun i => decide (i < nrPages) }
  { chunk with nrEmptyPopPages := pcpuCntPopPages chunk (startOffset / minAllocSize) (mapSize / minAllocSize) }

theorem first_eq (tmpAddr mapSize : Nat) (beyond : Bitmap) :
    pcpuAllocFirstChunk tmpAddr mapSize beyond = hideTail (hideHead (firstZeroed tmpAddr mapSize beyond)) mapSize := rfl

/-- The chunk of a region of the first chunk has summaries, areas and a hint that are right. -/
theorem first_ok {tmpAddr mapSize : Nat} (beyond : Bitmap) (addr : minAllocSize ∣ tmpAddr) (size : minAllocSize ∣ mapSize) :
    ChunkOk (pcpuAllocFirstChunk tmpAddr mapSize beyond) ∧ AreasOk ⟨pcpuAllocFirstChunk tmpAddr mapSize beyond, []⟩ ∧
      HintOk (pcpuAllocFirstChunk tmpAddr mapSize beyond) := by
  rw [first_eq]
  obtain ⟨pages, region⟩ : ∃ pages, align (tmpAddr % pageSize + mapSize) pageSize = pages * pageSize := by
    obtain ⟨pages, multiple⟩ := align_dvd (tmpAddr % pageSize + mapSize) (show 0 < pageSize by decide)
    exact ⟨pages, multiple.trans (Nat.mul_comm _ _)⟩
  have above := le_align (tmpAddr % pageSize + mapSize) pageSize
  have nrPages : align (tmpAddr % pageSize + mapSize) pageSize / pageSize = pages := by
    rw [region]
    exact Nat.mul_div_cancel _ (by decide)
  rw [region] at above
  -- the sizes of the chunk in bytes
  have headSize : (firstZeroed tmpAddr mapSize beyond).startOffset = tmpAddr % pageSize := rfl
  have tailSize : (firstZeroed tmpAddr mapSize beyond).endOffset = pages * pageSize - tmpAddr % pageSize - mapSize := by
    rw [← region]
    rfl
  have pageCount : (firstZeroed tmpAddr mapSize beyond).nrPages = pages := nrPages
  have mapBits : (firstZeroed tmpAddr mapSize beyond).mapBits = pages * blockBits := by
    rw [PcpuChunk.mapBits, pageCount]
  have headUnits : minAllocSize ∣ (firstZeroed tmpAddr mapSize beyond).startOffset := by
    rw [headSize]
    exact (Nat.dvd_mod_iff (by decide)).mpr addr
  have tailUnits : minAllocSize ∣ (firstZeroed tmpAddr mapSize beyond).endOffset := by
    rw [tailSize]
    rw [headSize] at headUnits
    unfold minAllocSize pageSize at *
    omega
  have hinted : (firstZeroed tmpAddr mapSize beyond).contigBits = mapSize / minAllocSize := rfl
  have zeroed : Made (firstZeroed tmpAddr mapSize beyond) 0 0 := by
    refine @made_zeroed (firstZeroed tmpAddr mapSize beyond) beyond rfl rfl rfl rfl ?_
    rw [hinted, mapBits]
    unfold minAllocSize blockBits pageSize at *
    omega
  have headed := zeroed.hideHead headUnits
    (by rw [headSize, mapBits]; unfold minAllocSize blockBits pageSize at *; omega) rfl
  obtain ⟨start, stop, samePages, sameFree⟩ := hideHead_region (firstZeroed tmpAddr mapSize beyond)
  have sameBits : (hideHead (firstZeroed tmpAddr mapSize beyond)).mapBits = pages * blockBits := by
    rw [PcpuChunk.mapBits, samePages, pageCount]
  have made := @Made.hideTail _ _ mapSize headed (by rw [stop]; exact tailUnits) (by
    rw [stop, sameBits, headSize, tailSize]
    unfold minAllocSize blockBits pageSize at *
    omega)
  obtain ⟨start', stop', samePages', sameFree'⟩ :=
    hideTail_region (hideHead (firstZeroed tmpAddr mapSize beyond)) mapSize
  refine ⟨made.chunkOk, ?_, made.hint⟩
  have freeSize : (firstZeroed tmpAddr mapSize beyond).freeBytes = (mapSize : Nat) := rfl
  rw [← start] at made
  rw [← start', ← stop'] at made
  apply made.areasOk
  · rw [start', start]
    exact headUnits
  · rw [stop', stop]
    exact tailUnits
  · rw [start', start, stop', stop, samePages', samePages, headSize, tailSize, pageCount]
    omega
  · rw [sameFree', sameFree, start', start, stop', stop, samePages', samePages, headSize, tailSize, pageCount, freeSize]
    omega

/-- Every chunk is made with summaries, areas and a hint that are right. -/
theorem created_ok {chunk : PcpuChunk} (h : Created chunk) :
    ChunkOk chunk ∧ AreasOk ⟨chunk, []⟩ ∧ HintOk chunk := by
  cases h with
  | later nrPages beyond =>
      have made := later_made nrPages beyond
      have areas : AreasOk ⟨pcpuAllocChunk nrPages beyond, []⟩ :=
        Made.areasOk (by simpa [pcpuAllocChunk] using made) (Nat.dvd_zero _) (Nat.dvd_zero _) (Nat.zero_le _) rfl
      exact ⟨made.chunkOk, areas, made.hint⟩
  | first tmpAddr mapSize beyond addr size nonempty => exact first_ok beyond addr size

/-! ## Areas and summaries in every reachable state -/

open BitScan

/-- What holds of a chunk and its live areas between two critical sections. -/
structure RunOk (s : State) : Prop where
  chunk : ChunkOk s.chunk
  areas : AreasOk s

/-- The memory behind the map is not part of the chunk. -/
theorem RunOk.elsewhere {s : State} (ok : RunOk s) (beyond : Bitmap) :
    RunOk { s with chunk := { s.chunk with
      allocMap := fun i => if i < s.chunk.mapBits then s.chunk.allocMap i else beyond i } } := by
  have same : ∀ i, i < s.chunk.mapBits →
      s.chunk.allocMap i = if i < s.chunk.mapBits then s.chunk.allocMap i else beyond i :=
    fun i below => (if_pos below).symm
  refine ⟨⟨?_, ?_⟩, ?_⟩
  · intro i below
    apply (ok.chunk.blocks i below).congr
    intro j lt
    have room : i * blockBits + blockBits ≤ s.chunk.mapBits := @block_end s.chunk i below
    exact same (i * blockBits + j) (by omega)
  · intro i lt below
    exact (same i below).symm.trans (ok.chunk.first i lt below)
  · refine { ok.areas with bits := ?_, free := ?_ }
    · intro i below
      exact (Bool.eq_iff_iff.mp (same i below).symm).trans (ok.areas.bits i below)
    · exact ok.areas.free.trans (congrArg (fun n : Nat => (minAllocSize : Int) * n) (clearBits_congr same))

theorem RunOk.step {s s' : State} (ok : RunOk s) (op : Op) (taken : step s op = some s') : RunOk s' := by
  cases op with
  | alloc size a atomic =>
      rcases step_alloc ok.chunk.blocks taken with
        ⟨-, rfl⟩ | ⟨request, bitOff, accepted, -, available, aligned, rfl⟩
      · exact ok
      · exact ⟨takeArea_ok ok.chunk available, ok.areas.take accepted available aligned⟩
  | free area =>
      simp only [Percpu.step] at taken
      split at taken
      · rename_i mem
        obtain rfl := Option.some.inj taken
        rw [ok.areas.freed mem]
        obtain ⟨-, units, nonempty⟩ := ok.areas.units area mem
        have pos : 0 < area.size / minAllocSize := Nat.div_pos (Nat.le_of_dvd nonempty units) (by decide)
        exact ⟨giveArea_ok ok.chunk pos (ok.areas.within mem), ok.areas.give mem⟩
      · exact absurd taken.symm (Option.some_ne_none _)
  | populate populated =>
      obtain rfl := Option.some.inj taken
      exact ⟨⟨ok.chunk.blocks, ok.chunk.first⟩, { ok.areas with }⟩
  | elsewhere beyond =>
      obtain rfl := Option.some.inj taken
      exact ok.elsewhere beyond

theorem reachable_ok {ok : State → Op → Prop} {s : State} (run : Reachable ok s) : RunOk s := by
  induction run with
  | created h =>
      obtain ⟨chunk, areas, -⟩ := created_ok h
      exact ⟨chunk, areas⟩
  | step op _ _ taken ih => exact ih.step op taken

/-- The state after a list of operations. -/
def runOps (s : State) (ops : List Op) : Option State := ops.foldlM step s

theorem reachable_runOps {s s' : State} {ops : List Op} (start : Reachable (fun _ _ => True) s)
    (ran : runOps s ops = some s') : Reachable (fun _ _ => True) s' := by
  induction ops generalizing s with
  | nil =>
      obtain rfl := Option.some.inj ran
      exact start
  | cons op ops ih =>
      simp only [runOps, List.foldlM_cons, Option.bind_eq_bind, Option.bind_eq_some_iff] at ran
      obtain ⟨mid, taken, rest⟩ := ran
      exact ih (start.step op trivial taken) rest

/-- A chunk of eight pages made at run time. -/
def freshState : State := ⟨pcpuAllocChunk 8 fun _ => false, []⟩

theorem freshState_reachable {ok : State → Op → Prop} : Reachable ok freshState := .created (.later 8 _)

/-- In every reachable state an area that is handed out is aligned, inside the region and apart
    from the live areas; the live areas are aligned, inside and apart from each other; the map
    has exactly their bits and the hidden ones set; the free bytes are those of the clear bits;
    and freeing a live area clears exactly its bits. -/
theorem percpu_areas_disjoint {s : State} (run : Reachable (fun _ _ => True) s) :
    (∀ size a atomic off chunk, pcpuAlloc s.chunk size a atomic = some (off, chunk) →
      ∃ request, pcpuAllocRequest size a = some request ∧ max a minAllocSize ∣ off ∧
        s.chunk.startOffset ≤ off ∧ off + request.1 ≤ s.chunk.nrPages * pageSize - s.chunk.endOffset ∧
        ∀ area ∈ s.live, Area.Apart ⟨off, request.1, a⟩ area) ∧
    (∀ area ∈ s.live, max area.alignment minAllocSize ∣ area.off ∧ s.chunk.startOffset ≤ area.off ∧
      area.off + area.size ≤ s.chunk.nrPages * pageSize - s.chunk.endOffset) ∧
    s.live.Pairwise Area.Apart ∧
    (∀ i, i < s.chunk.mapBits → (s.chunk.allocMap i = true ↔ s.chunk.Hidden i ∨ ∃ area ∈ s.live, area.Covers i)) ∧
    s.chunk.freeBytes = minAllocSize * clearBits s.chunk.allocMap s.chunk.mapBits ∧
    (∀ area ∈ s.live,
      findNextBit s.chunk.boundMap s.chunk.mapBits (area.off / minAllocSize + 1) * minAllocSize =
        area.off + area.size ∧
      ∀ i, (pcpuFreeArea s.chunk area.off).allocMap i = true ↔ s.chunk.allocMap i = true ∧ ¬area.Covers i) := by
  have ok := reachable_ok run
  refine ⟨?_, ?_, ok.areas.apart, ok.areas.bits, ok.areas.free, ?_⟩
  · intro size a atomic off chunk served
    rcases pcpuAlloc_place size a atomic ok.chunk.blocks with
      ⟨-, unserved⟩ | ⟨request, bitOff, requested, -, available, aligned, served'⟩
    · exact absurd (unserved.symm.trans served) (Option.some_ne_none _).symm
    · obtain ⟨rfl, rfl⟩ := Prod.mk.inj (Option.some.inj (served'.symm.trans served))
      have next := ok.areas.take (accepted_of_request requested) available aligned
      have fresh := List.mem_cons_self (a := (⟨bitOff * minAllocSize, request.1, a⟩ : Area)) (l := s.live)
      refine ⟨request, requested, next.aligned _ fresh, ?_, ?_, (List.pairwise_cons.mp next.apart).1⟩
      · obtain ⟨x, y, n, updated⟩ := hintAlloc_hint (takeBits s.chunk bitOff (request.1 / minAllocSize)) bitOff
          (request.1 / minAllocSize)
        have inside := (next.inside _ fresh).1
        simp only [takeArea, updated] at inside
        exact inside
      · obtain ⟨x, y, n, updated⟩ := hintAlloc_hint (takeBits s.chunk bitOff (request.1 / minAllocSize)) bitOff
          (request.1 / minAllocSize)
        have inside := (next.inside _ fresh).2
        simp only [takeArea, updated] at inside
        exact inside
  · intro area mem
    obtain ⟨lower, upper⟩ := ok.areas.inside area mem
    exact ⟨ok.areas.aligned area mem, lower, upper⟩
  · intro area mem
    obtain ⟨offUnits, sizeUnits, -⟩ := ok.areas.units area mem
    refine ⟨?_, fun i => ?_⟩
    · rw [ok.areas.end_found mem]
      exact Nat.div_mul_cancel (Nat.dvd_add offUnits sizeUnits)
    · rw [ok.areas.freed mem]
      obtain ⟨x, y, n, updated⟩ := hintFree_hint
        (giveBits s.chunk (area.off / minAllocSize) (area.size / minAllocSize)) (area.off / minAllocSize)
        (area.size / minAllocSize)
      simp only [giveArea, updated]
      change bitmapClear s.chunk.allocMap _ _ i = true ↔ _
      rw [bitmapClear_true, and_comm]
      apply and_congr_right
      intro _
      simp only [Area.Covers]
      unfold minAllocSize at *
      omega

theorem two_areas_disjoint : ∃ s, runOps freshState [.alloc 4000 4 false, .alloc 94 8 false] = some s ∧
    s.live = [⟨4000, 96, 8⟩, ⟨0, 4000, 4⟩] ∧ s.live.Pairwise Area.Apart ∧
    s.chunk.freeBytes = minAllocSize * clearBits s.chunk.allocMap s.chunk.mapBits := by
  have ran : (runOps freshState [.alloc 4000 4 false, .alloc 94 8 false]).map (·.live) =
      some [⟨4000, 96, 8⟩, ⟨0, 4000, 4⟩] := by decide +kernel
  obtain ⟨s, reached, live⟩ := Option.map_eq_some_iff.mp ran
  obtain ⟨-, -, apart, -, free, -⟩ := percpu_areas_disjoint (reachable_runOps freshState_reachable reached)
  exact ⟨s, reached, live, apart, free⟩

/-- In every reachable state each block's summary agrees with the block's bits, and no clear
    bit of the chunk lies below `first_bit`. -/
theorem block_summaries_agree {s : State} (run : Reachable (fun _ _ => True) s) :
    (∀ i, i < s.chunk.nrBlocks →
      Longest (pcpuIndexAllocMap s.chunk i) blockBits (s.chunk.mdBlocks i).contigHint ∧
      (0 < (s.chunk.mdBlocks i).contigHint →
        (s.chunk.mdBlocks i).contigHintStart + (s.chunk.mdBlocks i).contigHint ≤ blockBits ∧
        Clear (pcpuIndexAllocMap s.chunk i) (s.chunk.mdBlocks i).contigHintStart
          ((s.chunk.mdBlocks i).contigHintStart + (s.chunk.mdBlocks i).contigHint)) ∧
      LeftRun (pcpuIndexAllocMap s.chunk i) blockBits (s.chunk.mdBlocks i).leftFree ∧
      RightRun (pcpuIndexAllocMap s.chunk i) blockBits (s.chunk.mdBlocks i).rightFree ∧
      ∀ j, j < (s.chunk.mdBlocks i).firstFree → j < blockBits → pcpuIndexAllocMap s.chunk i j = true) ∧
    ∀ i, i < s.chunk.firstBit → i < s.chunk.mapBits → s.chunk.allocMap i = true := by
  have ok := reachable_ok run
  refine ⟨fun i below => ?_, ok.chunk.first⟩
  have summary := ok.chunk.blocks i below
  exact ⟨summary.longest, fun hinted => ⟨summary.inside hinted, summary.run⟩, summary.left, summary.right,
    summary.first⟩

theorem summary_after_alloc : ∃ s, runOps freshState [.alloc 4000 4 false] = some s ∧
    (s.chunk.mdBlocks 0).contigHint = 24 ∧ (s.chunk.mdBlocks 0).contigHintStart = 1000 ∧
    Longest (pcpuIndexAllocMap s.chunk 0) blockBits 24 ∧ Clear (pcpuIndexAllocMap s.chunk 0) 1000 1024 := by
  have ran : (runOps freshState [.alloc 4000 4 false]).map
      (fun s => (s.chunk.nrBlocks, (s.chunk.mdBlocks 0).contigHint, (s.chunk.mdBlocks 0).contigHintStart)) =
      some (8, 24, 1000) := by decide +kernel
  obtain ⟨s, reached, values⟩ := Option.map_eq_some_iff.mp ran
  simp only [Prod.mk.injEq] at values
  obtain ⟨blocks, hint, start⟩ := values
  obtain ⟨summaries, -⟩ := block_summaries_agree (reachable_runOps freshState_reachable reached)
  obtain ⟨longest, run, -⟩ := summaries 0 (by omega)
  rw [hint] at longest run
  rw [start] at run
  exact ⟨s, reached, hint, start, longest, (run (by decide)).2⟩

end Miracle.Percpu
