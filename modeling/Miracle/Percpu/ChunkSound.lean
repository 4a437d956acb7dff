import Miracle.Percpu.Lists

/-! # The chunks of the system one by one

What holds of every chunk: its maps and areas agree, its pages are counted right, and when it
was made at run time and has no areas its hint is the whole map.  A chunk of the first chunk
is smaller than a unit, so it never looks like a free unit.
-/

namespace Miracle.Percpu

open BitScan

/-! ## Counting -/

theorem weight_add_clearBits (m : Bitmap) (w : Nat) : bitmapWeight m w + clearBits m w = w := by
  induction w with
  | zero => rfl
  | succ w ih =>
      have weight : bitmapWeight m (w + 1) = bitmapWeight m w + if m w = true then 1 else 0 := by
        rw [bitmapWeight, List.range_succ, List.countP_append, List.countP_singleton]
        rfl
      have clear : clearBits m (w + 1) = clearBits m w + if m w = false then 1 else 0 := by
        rw [clearBits, Finset.range_add_one, Finset.filter_insert]
        split
        · rw [Finset.card_insert_of_notMem (by simp)]
          rfl
        · rfl
      rw [weight, clear]
      cases m w <;> simp <;> omega

theorem bitmapWeight_set {m : Bitmap} {w s n : Nat} (clear : Clear m s (s + n)) (inside : s + n ≤ w) :
    bitmapWeight (bitmapSet m s n) w = bitmapWeight m w + n := by
  have before := weight_add_clearBits m w
  have after := weight_add_clearBits (bitmapSet m s n) w
  have count := clearBits_set clear inside
  omega

theorem bitmapWeight_clear {m : Bitmap} {w s n : Nat} (full : ∀ i, s ≤ i → i < s + n → m i = true) (inside : s + n ≤ w) :
    bitmapWeight (bitmapClear m s n) w + n = bitmapWeight m w := by
  have before := weight_add_clearBits m w
  have after := weight_add_clearBits (bitmapClear m s n) w
  have count := clearBits_clear full inside
  omega

theorem bitmapWeight_empty {m : Bitmap} {w : Nat} (clear : Clear m 0 w) : bitmapWeight m w = 0 := by
  have all := weight_add_clearBits m w
  rw [clearBits_empty clear] at all
  omega

theorem bitmapWeight_full {m : Bitmap} {w : Nat} (full : ∀ i, i < w → m i = true) : bitmapWeight m w = w := by
  have all := weight_add_clearBits m w
  have none : clearBits m w = 0 := Finset.card_eq_zero.mpr (Finset.filter_eq_empty_iff.mpr fun i below => by
    rw [full i (Finset.mem_range.mp below)]
    decide)
  omega

/-! ## Free bytes -/

section

variable {s : State} (ok : AreasOk s)

include ok

/-- The free bytes are in the region. -/
theorem AreasOk.freeBytes_le : s.chunk.freeBytes ≤ (s.chunk.regionEnd - s.chunk.startOffset : Nat) := by
  have head := ok.headUnits
  have tail := ok.tailUnits
  have room := ok.hidden
  have within : clearBits s.chunk.allocMap s.chunk.mapBits ≤
      s.chunk.regionEnd / minAllocSize - s.chunk.startOffset / minAllocSize := by
    rw [← Nat.card_Ico]
    refine Finset.card_le_card (fun i member => ?_)
    simp only [Finset.mem_filter, Finset.mem_range] at member
    obtain ⟨below, clear⟩ := member
    have shown := mt (ok.bits i below).mpr (by simp [clear])
    simp only [PcpuChunk.Hidden, not_or, not_lt, not_le] at shown
    obtain ⟨⟨low, high⟩, -⟩ := shown
    rw [Finset.mem_Ico]
    simp only [minAllocSize, pageSize, PcpuChunk.regionEnd] at *
    omega
  have free := ok.free
  simp only [minAllocSize, PcpuChunk.regionEnd] at *
  omega

/-- A chunk that is not partly hidden has all bytes free exactly when it has no areas. -/
theorem AreasOk.free_iff (start : s.chunk.startOffset = 0) (stop : s.chunk.endOffset = 0) :
    s.live = [] ↔ Clear s.chunk.allocMap 0 s.chunk.mapBits := by
  have bytes := mapBits_bytes s.chunk
  have shown (i : Nat) (below : i < s.chunk.mapBits) : ¬ s.chunk.Hidden i := by
    simp only [PcpuChunk.Hidden, PcpuChunk.regionEnd, start, stop]
    simp only [minAllocSize] at *
    omega
  constructor
  · intro none i _ below
    have bit := ok.bits i below
    simpa [shown i below, none] using bit
  · intro clear
    by_contra some
    obtain ⟨area, member⟩ := List.exists_mem_of_ne_nil _ some
    obtain ⟨offUnits, sizeUnits, nonempty⟩ := ok.units area member
    have inside := ok.within member
    have below : area.off / minAllocSize < s.chunk.mapBits := by
      simp only [minAllocSize] at *
      omega
    have set := (ok.bits _ below).mpr (.inr ⟨area, member, by
      simp only [Area.Covers, minAllocSize] at *
      omega⟩)
    rw [clear _ (Nat.zero_le _) below] at set
    cases set

theorem AreasOk.clear_of_freeBytes (all : s.chunk.freeBytes = (s.chunk.nrPages * pageSize : Nat)) :
    Clear s.chunk.allocMap 0 s.chunk.mapBits := by
  have bytes := mapBits_bytes s.chunk
  have free := ok.free
  have total := weight_add_clearBits s.chunk.allocMap s.chunk.mapBits
  have none : bitmapWeight s.chunk.allocMap s.chunk.mapBits = 0 := by
    simp only [minAllocSize] at *
    omega
  intro i _ below
  have out := List.countP_eq_zero.mp none i (List.mem_range.mpr below)
  simpa using out

end

/-! ## Areas that come and go -/

theorem takeArea_same (chunk : PcpuChunk) (bitOff bits : Nat) :
    (takeArea chunk bitOff bits).nrPages = chunk.nrPages ∧ (takeArea chunk bitOff bits).startOffset = chunk.startOffset ∧
      (takeArea chunk bitOff bits).endOffset = chunk.endOffset ∧
      (takeArea chunk bitOff bits).populated = chunk.populated := by
  unfold takeArea
  obtain ⟨a, b, n, updated⟩ := hintAlloc_hint (takeBits chunk bitOff bits) bitOff bits
  rw [updated]
  exact ⟨rfl, rfl, rfl, rfl⟩

theorem giveArea_same (chunk : PcpuChunk) (bitOff bits : Nat) :
    (giveArea chunk bitOff bits).nrPages = chunk.nrPages ∧ (giveArea chunk bitOff bits).startOffset = chunk.startOffset ∧
      (giveArea chunk bitOff bits).endOffset = chunk.endOffset ∧
      (giveArea chunk bitOff bits).populated = chunk.populated := by
  unfold giveArea
  obtain ⟨a, b, n, updated⟩ := hintFree_hint (giveBits chunk bitOff bits) bitOff bits
  rw [updated]
  exact ⟨rfl, rfl, rfl, rfl⟩

namespace ManagedChunk

structure Sound (unitPages : Nat) (c : ManagedChunk) : Prop where
  run : RunOk ⟨c.chunk, c.live⟩
  counted : c.nrPopulated = bitmapWeight c.chunk.populated c.chunk.nrPages
  later : c.immutable = false → c.chunk.nrPages = unitPages ∧ c.chunk.startOffset = 0 ∧ c.chunk.endOffset = 0
  whole : c.immutable = false → c.live = [] → Whole c.chunk
  part : c.immutable = true → c.chunk.regionEnd - c.chunk.startOffset < unitPages * pageSize

variable {unitPages : Nat} {c : ManagedChunk} (sound : c.Sound unitPages)

include sound

theorem Sound.freeBytes_le : c.chunk.freeBytes ≤ (unitPages * pageSize : Nat) := by
  have inside := sound.run.areas.freeBytes_le
  simp only at inside
  cases first : c.immutable with
  | true =>
      have part := sound.part first
      omega
  | false =>
      obtain ⟨pages, -, -⟩ := sound.later first
      rw [PcpuChunk.regionEnd, pages] at inside
      omega

/-- A chunk with the free bytes of a unit is one without areas that was made at run time. -/
theorem Sound.empty_of_freeBytes (all : c.chunk.freeBytes = (unitPages * pageSize : Nat)) :
    c.immutable = false ∧ c.live = [] := by
  cases first : c.immutable with
  | true =>
      have part := sound.part first
      have inside := sound.run.areas.freeBytes_le
      simp only at inside
      omega
  | false =>
      obtain ⟨pages, start, stop⟩ := sound.later first
      have clear := sound.run.areas.clear_of_freeBytes (by rw [all, ← pages])
      exact ⟨rfl, (sound.run.areas.free_iff start stop).mpr clear⟩

theorem Sound.take {request : Nat × Nat} {a bitOff : Nat} (accepted : Accepted a request)
    (available : Available c.chunk bitOff (request.1 / minAllocSize)) (aligned : request.2 / minAllocSize ∣ bitOff) :
    Sound unitPages { c with
      chunk := takeArea c.chunk bitOff (request.1 / minAllocSize)
      live := ⟨bitOff * minAllocSize, request.1, a⟩ :: c.live } := by
  obtain ⟨pages, start, stop, populated⟩ := takeArea_same c.chunk bitOff (request.1 / minAllocSize)
  refine ⟨⟨takeArea_ok sound.run.chunk available, sound.run.areas.take accepted available aligned⟩, ?_, ?_, ?_, ?_⟩
  · simp only [pages, populated]
    exact sound.counted
  · simp only [pages, start, stop]
    exact sound.later
  · intro _ none
    cases none
  · simp only [PcpuChunk.regionEnd, pages, start, stop]
    exact sound.part

theorem Sound.give {area : Area} (live : area ∈ c.live) :
    Sound unitPages { c with chunk := pcpuFreeArea c.chunk area.off, live := c.live.erase area } := by
  have inside := sound.run.areas.within live
  obtain ⟨-, units, nonempty⟩ := sound.run.areas.units area live
  have pos : 0 < area.size / minAllocSize := Nat.div_pos (Nat.le_of_dvd nonempty units) (by decide)
  have freed : pcpuFreeArea c.chunk area.off = giveArea c.chunk (area.off / minAllocSize) (area.size / minAllocSize) :=
    sound.run.areas.freed live
  obtain ⟨pages, start, stop, populated⟩ := giveArea_same c.chunk (area.off / minAllocSize) (area.size / minAllocSize)
  have areas := sound.run.areas.give live
  have chunk := giveArea_ok sound.run.chunk pos inside
  rw [freed]
  refine ⟨⟨chunk, areas⟩, ?_, ?_, ?_, ?_⟩
  · simp only [pages, populated]
    exact sound.counted
  · simp only [pages, start, stop]
    exact sound.later
  · intro first none
    obtain ⟨-, startOffset, endOffset⟩ := sound.later first
    have clear := (areas.free_iff (by rw [start]; exact startOffset) (by rw [stop]; exact endOffset)).mp none
    refine giveArea_whole sound.run.chunk pos inside ?_
    obtain ⟨a, b, n, updated⟩ := hintFree_hint (giveBits c.chunk (area.off / minAllocSize) (area.size / minAllocSize))
      (area.off / minAllocSize) (area.size / minAllocSize)
    simp only [giveArea, updated] at clear
    exact clear
  · simp only [PcpuChunk.regionEnd, pages, start, stop]
    exact sound.part

end ManagedChunk

end Miracle.Percpu
