import Miracle.Percpu.Search

/-! # What an allocation and a free do to a chunk

An accepted request that is served takes a clear, aligned area of the map; a free gives back
what the boundary map delimits.  Both are reduced here to the area they work on, so that the
invariants need not look at the search again.
-/

namespace Miracle.Percpu

open BitScan

/-! ## Requests -/

theorem isPowerOf2_pow {n : Nat} (h : isPowerOf2 n = true) : ∃ k, n = 2 ^ k := by
  simp only [isPowerOf2, Bool.and_eq_true, decide_eq_true_eq, beq_iff_eq] at h
  exact (Nat.and_sub_one_eq_zero_iff_isPowerOfTwo h.1).mp h.2

/-- What the check of `pcpu_alloc` lets through. -/
structure Accepted (a : Nat) (request : Nat × Nat) : Prop where
  units : minAllocSize ∣ request.1
  nonempty : 0 < request.1
  bounded : request.1 ≤ minUnitSize
  alignment : request.2 = max a minAllocSize
  power : ∃ k, request.2 = 2 ^ (k + 2) ∧ k ≤ 10

theorem accepted_of_request {size a : Nat} {request : Nat × Nat} (h : pcpuAllocRequest size a = some request) :
    Accepted a request := by
  have clamp : (if a < minAllocSize then minAllocSize else a) = max a minAllocSize := by
    split <;> omega
  simp only [pcpuAllocRequest, clamp] at h
  split at h
  · exact absurd h.symm (Option.some_ne_none _)
  · rename_i passed
    push Not at passed
    obtain ⟨proper, small, alignSmall, power⟩ := passed
    obtain rfl := Option.some.inj h
    refine ⟨Dvd.intro_left _ rfl, Nat.pos_of_ne_zero proper, small, rfl, ?_⟩
    obtain ⟨k, pow⟩ := isPowerOf2_pow (Bool.eq_true_of_not_eq_false power)
    have least : 2 ^ 2 ≤ 2 ^ k := by
      rw [← pow]
      exact le_max_right a minAllocSize
    have most : 2 ^ k ≤ 2 ^ 12 := by
      rw [← pow]
      exact alignSmall
    have least' := (Nat.pow_le_pow_iff_right (by decide)).mp least
    have most' := (Nat.pow_le_pow_iff_right (by decide)).mp most
    refine ⟨k - 2, ?_, by omega⟩
    rw [show k - 2 + 2 = k by omega]
    exact pow

section Units

variable {a : Nat} {request : Nat × Nat}

theorem Accepted.bits (accepted : Accepted a request) : request.1 = request.1 / minAllocSize * minAllocSize :=
  (Nat.div_mul_cancel accepted.units).symm

theorem Accepted.bits_pos (accepted : Accepted a request) : 0 < request.1 / minAllocSize :=
  Nat.div_pos (Nat.le_of_dvd accepted.nonempty accepted.units) (by decide)

theorem Accepted.bitAlign (accepted : Accepted a request) :
    0 < request.2 / minAllocSize ∧ request.2 / minAllocSize ∣ blockBits ∧
      request.2 = request.2 / minAllocSize * minAllocSize := by
  obtain ⟨k, pow, small⟩ := accepted.power
  have unit : request.2 = 2 ^ k * minAllocSize := by
    rw [pow, pow_add]
    rfl
  have quotient : request.2 / minAllocSize = 2 ^ k := by
    rw [unit]
    exact Nat.mul_div_cancel _ (by decide)
  rw [quotient]
  exact ⟨Nat.two_pow_pos k, pow_dvd_pow 2 small, unit⟩

end Units

/-! ## Taking and giving back an area -/

/-- The maps and counters after the area of `bits` bits at `bitOff` is taken. -/
def takeBits (chunk : PcpuChunk) (bitOff bits : Nat) : PcpuChunk :=
  { chunk with
    allocMap := bitmapSet chunk.allocMap bitOff bits
    boundMap := setBit (bitmapClear (setBit chunk.boundMap bitOff) (bitOff + 1) (bits - 1)) (bitOff + bits)
    freeBytes := chunk.freeBytes - bits * minAllocSize
    firstBit := if bitOff = chunk.firstBit then
      findNextZeroBit (bitmapSet chunk.allocMap bitOff bits) chunk.mapBits (bitOff + bits) else chunk.firstBit }

def takeArea (chunk : PcpuChunk) (bitOff bits : Nat) : PcpuChunk :=
  pcpuBlockUpdateHintAlloc (takeBits chunk bitOff bits) bitOff bits

/-- The maps and counters after these bits are given back. -/
def giveBits (chunk : PcpuChunk) (bitOff bits : Nat) : PcpuChunk :=
  { chunk with
    allocMap := bitmapClear chunk.allocMap bitOff bits
    freeBytes := chunk.freeBytes + bits * minAllocSize
    firstBit := min chunk.firstBit bitOff }

def giveArea (chunk : PcpuChunk) (bitOff bits : Nat) : PcpuChunk :=
  pcpuBlockUpdateHintFree (giveBits chunk bitOff bits) bitOff bits

/-- The bits that a served request takes: the place that the search settles on, and how many. -/
def placement (chunk : PcpuChunk) (size a : Nat) (atomic : Bool) : Option (Nat × Nat) := do
  let (size, a) ← pcpuAllocRequest size a
  let bits := size / minAllocSize
  let start ← pcpuFindBlockFit chunk bits (a / minAllocSize) atomic
  some (bitmapFindNextZeroArea chunk.allocMap (start + bits + blockBits) start bits (a / minAllocSize - 1), bits)

/-- The area at `bitOff` is clear and inside the map. -/
structure Available (chunk : PcpuChunk) (bitOff bits : Nat) : Prop where
  pos : 0 < bits
  inside : bitOff + bits ≤ chunk.mapBits
  clear : Clear chunk.allocMap bitOff (bitOff + bits)

/-- From the start of a fit the first aligned area is taken, at the fit or before it. -/
theorem allocArea_fit {chunk : PcpuChunk} {allocBits a start q : Nat} (pos : 0 < a) (some_bits : 0 < allocBits) (lower : start ≤ q)
    (near : q ≤ start + blockBits) (multiple : a ∣ q) (room : q + allocBits ≤ chunk.mapBits)
    (clear : Clear chunk.allocMap q (q + allocBits)) :
    ∃ bitOff, bitmapFindNextZeroArea chunk.allocMap (start + allocBits + blockBits) start allocBits (a - 1) = bitOff ∧
      pcpuAllocArea chunk allocBits a start = some (bitOff * minAllocSize, takeArea chunk bitOff allocBits) ∧
      start ≤ bitOff ∧ bitOff ≤ q ∧ a ∣ bitOff ∧ Available chunk bitOff allocBits := by
  have mask : a - 1 + 1 = a := Nat.sub_add_cancel pos
  rw [← mask] at multiple
  obtain ⟨ge, le, dvd, area⟩ := findZeroAreaLoop_spec (m := chunk.allocMap)
    (show start + allocBits + blockBits < start + allocBits + blockBits + 1 + start by omega) lower multiple
    (show q + allocBits ≤ start + allocBits + blockBits by omega) clear some_bits
  rw [mask] at dvd
  change start ≤ bitmapFindNextZeroArea _ _ _ _ _ at ge
  change bitmapFindNextZeroArea _ _ _ _ _ ≤ q at le
  refine ⟨_, rfl, ?_, ge, le, dvd, some_bits, by omega, area⟩
  simp only [pcpuAllocArea]
  rw [if_pos pos.ne', if_neg (by omega)]
  rfl

/-- Every request that finds a place is served from it, and the place is available and aligned. -/
theorem pcpuAlloc_place {chunk : PcpuChunk} (size a : Nat) (atomic : Bool)
    (ok : BlocksOk chunk.nrBlocks chunk.allocMap chunk.mdBlocks) :
    (placement chunk size a atomic = none ∧ pcpuAlloc chunk size a atomic = none) ∨
      ∃ request bitOff, pcpuAllocRequest size a = some request ∧
        placement chunk size a atomic = some (bitOff, request.1 / minAllocSize) ∧
        Available chunk bitOff (request.1 / minAllocSize) ∧ request.2 / minAllocSize ∣ bitOff ∧
        pcpuAlloc chunk size a atomic =
          some (bitOff * minAllocSize, takeArea chunk bitOff (request.1 / minAllocSize)) := by
  unfold placement pcpuAlloc
  cases requested : pcpuAllocRequest size a with
  | none => exact .inl ⟨rfl, rfl⟩
  | some request =>
      have accepted := accepted_of_request requested
      have bitsPos := accepted.bits_pos
      obtain ⟨alignPos, unit, -⟩ := accepted.bitAlign
      simp only [Option.bind_eq_bind, Option.bind_some]
      cases found : pcpuFindBlockFit chunk (request.1 / minAllocSize) (request.2 / minAllocSize) atomic with
      | none => exact .inl ⟨rfl, rfl⟩
      | some start =>
          obtain ⟨bits, ⟨q, lower, near, multiple, room, clear, -⟩, -⟩ := findBlockFit_found ok unit alignPos bitsPos found
          obtain ⟨bitOff, rfl, taken, -, -, aligned, available⟩ :=
            allocArea_fit alignPos bitsPos lower near multiple room clear
          refine .inr ⟨request, _, rfl, rfl, available, aligned, ?_⟩
          simp only [Option.bind_some, taken]

/-- The state after an allocation that is served, and the state after one that is not. -/
theorem step_alloc {s s' : State} {size a : Nat} {atomic : Bool}
    (ok : BlocksOk s.chunk.nrBlocks s.chunk.allocMap s.chunk.mdBlocks)
    (taken : step s (.alloc size a atomic) = some s') :
    (placement s.chunk size a atomic = none ∧ s' = s) ∨
      ∃ request bitOff, Accepted a request ∧
        placement s.chunk size a atomic = some (bitOff, request.1 / minAllocSize) ∧
        Available s.chunk bitOff (request.1 / minAllocSize) ∧ request.2 / minAllocSize ∣ bitOff ∧
        s' = ⟨takeArea s.chunk bitOff (request.1 / minAllocSize),
          ⟨bitOff * minAllocSize, request.1, a⟩ :: s.live⟩ := by
  simp only [step] at taken
  rcases pcpuAlloc_place size a atomic ok with
    ⟨unplaced, unserved⟩ | ⟨request, bitOff, requested, placed, available, aligned, served⟩
  · rw [unserved] at taken
    cases requested : pcpuAllocRequest size a with
    | none =>
        rw [requested] at taken
        exact .inl ⟨unplaced, (Option.some.inj taken).symm⟩
    | some request =>
        rw [requested] at taken
        exact .inl ⟨unplaced, (Option.some.inj taken).symm⟩
  · rw [requested, served] at taken
    simp only [Option.some.injEq] at taken
    exact .inr ⟨request, bitOff, accepted_of_request requested, placed, available, aligned, taken.symm⟩

/-! ## The summaries of a chunk -/

/-- The summaries agree with the map, and no clear bit lies below `first_bit`. -/
structure ChunkOk (chunk : PcpuChunk) : Prop where
  blocks : BlocksOk chunk.nrBlocks chunk.allocMap chunk.mdBlocks
  first : ∀ i, i < chunk.firstBit → i < chunk.mapBits → chunk.allocMap i = true

theorem takeArea_ok {chunk : PcpuChunk} {bitOff bits : Nat} (ok : ChunkOk chunk)
    (available : Available chunk bitOff bits) : ChunkOk (takeArea chunk bitOff bits) := by
  unfold takeArea
  obtain ⟨a, b, n, updated⟩ := hintAlloc_hint (takeBits chunk bitOff bits) bitOff bits
  rw [updated]
  refine ⟨?_, ?_⟩
  · exact @allocBlocks_ok (takeBits chunk bitOff bits) chunk.allocMap bitOff bits ok.blocks rfl
      available.clear available.pos
  · intro i lt below
    have lt' : i < if bitOff = chunk.firstBit then
      findNextZeroBit (bitmapSet chunk.allocMap bitOff bits) chunk.mapBits (bitOff + bits) else chunk.firstBit := lt
    change bitmapSet chunk.allocMap bitOff bits i = true
    rw [bitmapSet_true]
    split at lt'
    · rename_i place
      rcases Nat.lt_or_ge i bitOff with before | behind
      · exact .inr (ok.first i (by omega) below)
      · rcases Nat.lt_or_ge i (bitOff + bits) with within | after
        · exact .inl ⟨behind, within⟩
        · have ones := (findNext_spec (bitmapSet chunk.allocMap bitOff bits) false chunk.mapBits (bitOff + bits)).2.2.2
          have set : bitmapSet chunk.allocMap bitOff bits i = true := by simpa using ones i after lt'
          exact bitmapSet_true.mp set
    · exact .inr (ok.first i lt' below)

theorem giveArea_ok {chunk : PcpuChunk} {bitOff bits : Nat} (ok : ChunkOk chunk) (pos : 0 < bits)
    (inside : bitOff + bits ≤ chunk.mapBits) : ChunkOk (giveArea chunk bitOff bits) := by
  unfold giveArea
  obtain ⟨a, b, n, updated⟩ := hintFree_hint (giveBits chunk bitOff bits) bitOff bits
  rw [updated]
  refine ⟨?_, ?_⟩
  · exact @freedBlocks_ok (giveBits chunk bitOff bits) chunk.allocMap bitOff bits ok.blocks rfl pos inside
  · intro i lt below
    have lt' : i < min chunk.firstBit bitOff := lt
    change bitmapClear chunk.allocMap bitOff bits i = true
    rw [bitmapClear_outside (by omega)]
    exact ok.first i (by omega) below

end Miracle.Percpu
