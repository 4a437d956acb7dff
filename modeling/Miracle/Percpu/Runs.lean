import Miracle.Percpu.Areas

/-! # The areas of a chunk over whole runs

In every reachable state the live areas are inside the chunk's region and apart from each
other, the map has exactly their bits and the hidden ones set, and the boundary map delimits
each of them.  The summaries agree with the map in the same states.
-/

namespace Miracle.Percpu

open BitScan

/-- The byte of a bit belongs to the area. -/
def Area.Covers (area : Area) (i : Nat) : Prop := area.off ≤ i * minAllocSize ∧ i * minAllocSize < area.off + area.size

def Area.Apart (a b : Area) : Prop := a.off + a.size ≤ b.off ∨ b.off + b.size ≤ a.off

theorem Area.Apart.symm {a b : Area} (h : a.Apart b) : b.Apart a := Or.symm h

/-- The end of the region that a chunk serves. -/
def PcpuChunk.regionEnd (chunk : PcpuChunk) : Nat := chunk.nrPages * pageSize - chunk.endOffset

/-- The bits before and after the region, which are hidden. -/
def PcpuChunk.Hidden (chunk : PcpuChunk) (i : Nat) : Prop :=
  i * minAllocSize < chunk.startOffset ∨ chunk.regionEnd ≤ i * minAllocSize

structure AreasOk (s : State) : Prop where
  headUnits : minAllocSize ∣ s.chunk.startOffset
  tailUnits : minAllocSize ∣ s.chunk.endOffset
  hidden : s.chunk.startOffset + s.chunk.endOffset ≤ s.chunk.nrPages * pageSize
  units : ∀ area ∈ s.live, minAllocSize ∣ area.off ∧ minAllocSize ∣ area.size ∧ 0 < area.size
  aligned : ∀ area ∈ s.live, max area.alignment minAllocSize ∣ area.off
  inside : ∀ area ∈ s.live, s.chunk.startOffset ≤ area.off ∧ area.off + area.size ≤ s.chunk.regionEnd
  apart : s.live.Pairwise Area.Apart
  bits : ∀ i, i < s.chunk.mapBits → (s.chunk.allocMap i = true ↔ s.chunk.Hidden i ∨ ∃ area ∈ s.live, area.Covers i)
  free : s.chunk.freeBytes = minAllocSize * clearBits s.chunk.allocMap s.chunk.mapBits
  bounds : ∀ area ∈ s.live, s.chunk.boundMap ((area.off + area.size) / minAllocSize) = true ∧
    ∀ j, area.off / minAllocSize < j → j < (area.off + area.size) / minAllocSize → s.chunk.boundMap j = false

theorem mapBits_bytes (chunk : PcpuChunk) : chunk.mapBits * minAllocSize = chunk.nrPages * pageSize := by
  simp only [PcpuChunk.mapBits, blockBits, minAllocSize, pageSize]
  omega

/-- The bits of a live area are in the map. -/
theorem AreasOk.within {s : State} (ok : AreasOk s) {area : Area} (mem : area ∈ s.live) :
    area.off / minAllocSize + area.size / minAllocSize ≤ s.chunk.mapBits := by
  have bytes := mapBits_bytes s.chunk
  have inside := (ok.inside area mem).2
  unfold PcpuChunk.regionEnd at inside
  unfold minAllocSize at *
  omega

/-- The next boundary after a live area's start is its end. -/
theorem AreasOk.end_found {s : State} (ok : AreasOk s) {area : Area} (mem : area ∈ s.live) :
    findNextBit s.chunk.boundMap s.chunk.mapBits (area.off / minAllocSize + 1) =
      (area.off + area.size) / minAllocSize := by
  obtain ⟨offUnits, sizeUnits, nonempty⟩ := ok.units area mem
  obtain ⟨set, unset⟩ := ok.bounds area mem
  have within := ok.within mem
  apply findNext_eq
  · unfold minAllocSize at *
    omega
  · unfold minAllocSize at *
    omega
  · exact fun _ => set
  · intro j lo hi
    simpa using unset j (by omega) hi

/-- A free gives back exactly the bits of the area. -/
theorem AreasOk.freed {s : State} (ok : AreasOk s) {area : Area} (mem : area ∈ s.live) :
    pcpuFreeArea s.chunk area.off = giveArea s.chunk (area.off / minAllocSize) (area.size / minAllocSize) := by
  obtain ⟨offUnits, sizeUnits, nonempty⟩ := ok.units area mem
  have length : (area.off + area.size) / minAllocSize - area.off / minAllocSize = area.size / minAllocSize := by
    unfold minAllocSize at *
    omega
  unfold pcpuFreeArea giveArea giveBits
  simp only [ok.end_found mem, length]

/-! ## Steps -/

theorem AreasOk.take {s : State} {request : Nat × Nat} {a bitOff : Nat} (ok : AreasOk s) (accepted : Accepted a request)
    (available : Available s.chunk bitOff (request.1 / minAllocSize)) (aligned : request.2 / minAllocSize ∣ bitOff) :
    AreasOk ⟨takeArea s.chunk bitOff (request.1 / minAllocSize), ⟨bitOff * minAllocSize, request.1, a⟩ :: s.live⟩ := by
  have bytes := mapBits_bytes s.chunk
  have headUnits := ok.headUnits
  have tailUnits := ok.tailUnits
  have room := available.inside
  have size := accepted.bits
  have pos := accepted.bits_pos
  -- no bit of the area is hidden or covered
  have fresh : ∀ i, bitOff ≤ i → i < bitOff + request.1 / minAllocSize →
      ¬s.chunk.Hidden i ∧ ∀ area ∈ s.live, ¬area.Covers i := by
    intro i lo hi
    have clear := available.clear i lo hi
    have free := mt (ok.bits i (by omega)).mpr (by simp [clear])
    push Not at free
    exact free
  have inRegion : s.chunk.startOffset ≤ bitOff * minAllocSize ∧
      bitOff * minAllocSize + request.1 ≤ s.chunk.regionEnd := by
    have low := (fresh bitOff le_rfl (by omega)).1
    have high := (fresh (bitOff + request.1 / minAllocSize - 1) (by omega) (by omega)).1
    simp only [PcpuChunk.Hidden, PcpuChunk.regionEnd, not_or, not_lt, not_le] at low high ⊢
    unfold minAllocSize at *
    omega
  have apartNew : ∀ area ∈ s.live, Area.Apart ⟨bitOff * minAllocSize, request.1, a⟩ area := by
    intro area mem
    obtain ⟨offUnits, sizeUnits, nonempty⟩ := ok.units area mem
    by_contra meets
    simp only [Area.Apart, not_or, not_le] at meets
    -- the two areas share the unit at the later of their starts
    have miss := (fresh (max bitOff (area.off / minAllocSize))
      (le_max_left _ _) (by unfold minAllocSize at *; omega)).2 area mem
    simp only [Area.Covers, not_and, not_lt] at miss
    have start : area.off ≤ max bitOff (area.off / minAllocSize) * minAllocSize := by
      unfold minAllocSize at *
      omega
    have bound := miss start
    unfold minAllocSize at *
    omega
  unfold takeArea
  obtain ⟨x, y, n, updated⟩ := hintAlloc_hint (takeBits s.chunk bitOff (request.1 / minAllocSize)) bitOff
    (request.1 / minAllocSize)
  rw [updated]
  constructor
  case headUnits => exact headUnits
  case tailUnits => exact tailUnits
  case hidden => exact ok.hidden
  case units =>
      rintro area (_ | ⟨_, mem⟩)
      · exact ⟨Dvd.intro_left _ rfl, accepted.units, accepted.nonempty⟩
      · exact ok.units area mem
  case aligned =>
      rintro area (_ | ⟨_, mem⟩)
      · obtain ⟨-, -, unit⟩ := accepted.bitAlign
        change max a minAllocSize ∣ bitOff * minAllocSize
        rw [← accepted.alignment, unit]
        exact Nat.mul_dvd_mul_right aligned minAllocSize
      · exact ok.aligned area mem
  case inside =>
      rintro area (_ | ⟨_, mem⟩)
      · exact inRegion
      · exact ok.inside area mem
  case apart => exact List.pairwise_cons.mpr ⟨apartNew, ok.apart⟩
  case bits =>
      intro i below
      change bitmapSet s.chunk.allocMap bitOff (request.1 / minAllocSize) i = true ↔
        s.chunk.Hidden i ∨ ∃ area ∈ (⟨bitOff * minAllocSize, request.1, a⟩ :: s.live : List Area), area.Covers i
      have covers : (bitOff ≤ i ∧ i < bitOff + request.1 / minAllocSize) ↔
          Area.Covers ⟨bitOff * minAllocSize, request.1, a⟩ i := by
        simp only [Area.Covers]
        unfold minAllocSize at *
        omega
      rw [bitmapSet_true, ok.bits i below, covers]
      simp only [List.mem_cons, exists_eq_or_imp]
      tauto
  case free =>
      change s.chunk.freeBytes - (request.1 / minAllocSize : Nat) * (minAllocSize : Nat) =
        minAllocSize * clearBits (bitmapSet s.chunk.allocMap bitOff (request.1 / minAllocSize)) s.chunk.mapBits
      have count := clearBits_set available.clear available.inside
      have before := ok.free
      simp only [minAllocSize] at *
      omega
  case bounds =>
      change ∀ area ∈ (⟨bitOff * minAllocSize, request.1, a⟩ :: s.live : List Area),
        setBit (bitmapClear (setBit s.chunk.boundMap bitOff) (bitOff + 1) (request.1 / minAllocSize - 1))
          (bitOff + request.1 / minAllocSize) ((area.off + area.size) / minAllocSize) = true ∧
        ∀ j, area.off / minAllocSize < j → j < (area.off + area.size) / minAllocSize →
          setBit (bitmapClear (setBit s.chunk.boundMap bitOff) (bitOff + 1) (request.1 / minAllocSize - 1))
            (bitOff + request.1 / minAllocSize) j = false
      intro area mem
      rcases List.mem_cons.mp mem with rfl | old
      · constructor
        · exact bitmapSet_inside (by simp only; unfold minAllocSize at *; omega)
        · intro j lo hi
          simp only at lo hi
          rw [setBit, bitmapSet_outside (by unfold minAllocSize at *; omega)]
          exact bitmapClear_inside (by unfold minAllocSize at *; omega)
      · -- the new area's boundaries are not inside an old one
        obtain ⟨offUnits, sizeUnits, nonempty⟩ := ok.units area old
        obtain ⟨set, unset⟩ := ok.bounds area old
        have apart := apartNew area old
        simp only [Area.Apart] at apart
        constructor
        · rw [setBit, bitmapSet_true]
          right
          rw [bitmapClear_true, setBit, bitmapSet_true]
          exact ⟨by unfold minAllocSize at *; omega, .inr set⟩
        · intro j lo hi
          rw [setBit, bitmapSet_outside (by unfold minAllocSize at *; omega)]
          by_cases cleared : bitOff + 1 ≤ j ∧ j < bitOff + 1 + (request.1 / minAllocSize - 1)
          · exact bitmapClear_inside cleared
          · rw [bitmapClear_outside cleared, setBit, bitmapSet_outside (by unfold minAllocSize at *; omega)]
            exact unset j lo hi

theorem AreasOk.give {s : State} {area : Area} (ok : AreasOk s) (mem : area ∈ s.live) :
    AreasOk ⟨giveArea s.chunk (area.off / minAllocSize) (area.size / minAllocSize), s.live.erase area⟩ := by
  obtain ⟨offUnits, sizeUnits, nonempty⟩ := ok.units area mem
  have within := ok.within mem
  have kept {other : Area} (h : other ∈ s.live.erase area) : other ∈ s.live := List.mem_of_mem_erase h
  have apartOld : ∀ other ∈ s.live.erase area, area.Apart other :=
    (List.pairwise_cons.mp ((List.perm_cons_erase mem).pairwise ok.apart Area.Apart.symm)).1
  have covers (i : Nat) : (area.off / minAllocSize ≤ i ∧ i < area.off / minAllocSize + area.size / minAllocSize) ↔
      area.Covers i := by
    simp only [Area.Covers]
    unfold minAllocSize at *
    omega
  unfold giveArea
  obtain ⟨x, y, n, updated⟩ := hintFree_hint
    (giveBits s.chunk (area.off / minAllocSize) (area.size / minAllocSize)) (area.off / minAllocSize)
    (area.size / minAllocSize)
  rw [updated]
  constructor
  case headUnits => exact ok.headUnits
  case tailUnits => exact ok.tailUnits
  case hidden => exact ok.hidden
  case units => exact fun other h => ok.units other (kept h)
  case aligned => exact fun other h => ok.aligned other (kept h)
  case inside => exact fun other h => ok.inside other (kept h)
  case apart => exact ok.apart.sublist List.erase_sublist
  case bits =>
      intro i below
      change bitmapClear s.chunk.allocMap (area.off / minAllocSize) (area.size / minAllocSize) i = true ↔
        s.chunk.Hidden i ∨ ∃ other ∈ s.live.erase area, other.Covers i
      rw [bitmapClear_true, covers, ok.bits i below]
      constructor
      · rintro ⟨outside, hidden | ⟨other, old, covered⟩⟩
        · exact .inl hidden
        · refine .inr ⟨other, (List.mem_erase_of_ne ?_).mpr old, covered⟩
          rintro rfl
          exact outside covered
      · rintro (hidden | ⟨other, old, covered⟩)
        · refine ⟨?_, .inl hidden⟩
          have inside := ok.inside area mem
          simp only [PcpuChunk.Hidden] at hidden
          simp only [Area.Covers]
          omega
        · refine ⟨?_, .inr ⟨other, kept old, covered⟩⟩
          have apart := apartOld other old
          simp only [Area.Apart, Area.Covers] at *
          omega
  case free =>
      change s.chunk.freeBytes + (area.size / minAllocSize : Nat) * (minAllocSize : Nat) = minAllocSize *
        clearBits (bitmapClear s.chunk.allocMap (area.off / minAllocSize) (area.size / minAllocSize)) s.chunk.mapBits
      have full : ∀ i, area.off / minAllocSize ≤ i → i < area.off / minAllocSize + area.size / minAllocSize →
          s.chunk.allocMap i = true := fun i lo hi =>
        (ok.bits i (by omega)).mpr (.inr ⟨area, mem, (covers i).mp ⟨lo, hi⟩⟩)
      have count := clearBits_clear full within
      have before := ok.free
      simp only [minAllocSize] at *
      omega
  case bounds => exact fun other h => ok.bounds other (kept h)

end Miracle.Percpu
