import Miracle.Percpu.HintSafety
import Miracle.Percpu.System

/-! # The lists that chunks are on

A chunk that serves requests is on one slot, once, and the slot is the one for its free bytes.
The last slot has only chunks without areas: no other size is counted to it.
-/

namespace Miracle.Percpu.System

open BitScan

/-! ## Slots -/

theorem sizeToSlot_mono {size size' : Nat} (le : size ≤ size') : sizeToSlot size ≤ sizeToSlot size' := by
  have bits : fls size ≤ fls size' := fls_le_iff.mpr (le.trans_lt (fls_le_iff.mp (le_refl (fls size'))))
  unfold sizeToSlot
  omega

theorem last_pos (sys : System) : 2 ≤ sys.nrSlots - 1 := by
  unfold nrSlots sizeToSlot
  omega

/-- The slot of every other size is below the last one. -/
theorem sizeToSlot_lt (sys : System) {size : Nat} (le : size ≤ sys.unitSize) : sizeToSlot size < sys.nrSlots - 1 := by
  have mono := sizeToSlot_mono le
  unfold nrSlots
  omega

theorem freeBytes_of_last (sys : System) {chunk : PcpuChunk} (le : chunk.freeBytes ≤ sys.unitSize)
    (last : sys.pcpuChunkSlot chunk = sys.nrSlots - 1) : chunk.freeBytes = sys.unitSize ∧ chunk.contigBits ≠ 0 := by
  have two := last_pos sys
  unfold pcpuChunkSlot at last
  split at last
  · omega
  · rename_i some
    push Not at some
    have pos : (minAllocSize : Int) ≤ chunk.freeBytes := some.1
    have four : (minAllocSize : Int) = 4 := rfl
    unfold pcpuSizeToSlot at last
    split at last
    · exact ⟨by omega, some.2⟩
    · have lt := sizeToSlot_lt sys (by omega : chunk.freeBytes.toNat ≤ sys.unitSize)
      omega

theorem last_of_freeBytes (sys : System) {chunk : PcpuChunk} (some : 0 < sys.unitPages)
    (free : chunk.freeBytes = sys.unitSize) (hinted : chunk.contigBits ≠ 0) : sys.pcpuChunkSlot chunk = sys.nrSlots - 1 := by
  have large : 4 ≤ sys.unitSize := by
    simp only [unitSize, pageSize]
    omega
  unfold pcpuChunkSlot pcpuSizeToSlot
  rw [if_neg, if_pos]
  · rw [free]
    exact Int.toNat_natCast _
  · rw [free]
    simp only [minAllocSize]
    omega

/-! ## Moving -/

section

variable {sys : System} {id : Nat} {chunk : PcpuChunk} {oslot : Int}

/-- The chunk is on the slot of its free bytes, if it was on the slot it was said to be on. -/
theorem relocate_count (serves : sys.reservedChunk ≠ some id)
    (old : ∀ k : Nat, (sys.pcpuSlot k).count id = if (k : Int) = oslot then 1 else 0) (k : Nat) :
    ((sys.pcpuChunkRelocate id chunk oslot).pcpuSlot k).count id = if k = sys.pcpuChunkSlot chunk then 1 else 0 := by
  unfold pcpuChunkRelocate
  by_cases same : oslot = sys.pcpuChunkSlot chunk
  · simp only [if_neg (not_and_not_right.mpr fun _ => same)]
    rw [old, same]
    simp only [Nat.cast_inj]
  · simp only [if_pos (And.intro serves same), listMove]
    have none : ((sys.pcpuSlot k).erase id).count id = 0 := by
      rw [List.count_erase_self, old]
      split <;> rfl
    split
    · split
      · rw [List.count_cons_self, none]
      · rw [List.count_append, none, List.count_singleton_self]
    · exact none

theorem relocate_count_ne {other : Nat} (ne : other ≠ id) (k : Nat) :
    ((sys.pcpuChunkRelocate id chunk oslot).pcpuSlot k).count other = (sys.pcpuSlot k).count other := by
  unfold pcpuChunkRelocate
  simp only
  split
  · simp only [listMove]
    have rest : ((sys.pcpuSlot k).erase id).count other = (sys.pcpuSlot k).count other := List.count_erase_of_ne ne
    split
    · split
      · rw [List.count_cons_of_ne ne.symm, rest]
      · rw [List.count_append, rest, List.count_singleton]
        simp [ne.symm]
    · exact rest
  · rfl

theorem relocate_toFree (away : id ∉ sys.toFree) : (sys.pcpuChunkRelocate id chunk oslot).toFree = sys.toFree := by
  unfold pcpuChunkRelocate
  simp only
  split
  · exact List.erase_of_not_mem away
  · rfl

theorem relocate_reserved (reserved : sys.reservedChunk = some id) : sys.pcpuChunkRelocate id chunk oslot = sys := by
  unfold pcpuChunkRelocate
  rw [if_neg]
  exact fun both => both.1 reserved

/-- Moving a chunk changes nothing but the lists. -/
theorem relocate_eq : ∃ slots toFree, sys.pcpuChunkRelocate id chunk oslot =
    { sys with pcpuSlot := slots, toFree := toFree } := by
  unfold pcpuChunkRelocate
  simp only
  split
  · exact ⟨_, _, rfl⟩
  · exact ⟨_, _, rfl⟩

end

/-- Each chunk is in its place on the lists. -/
structure Lists (sys : System) : Prop where
  ids : (sys.chunks.map ManagedChunk.id).Nodup
  onSlot : ∀ c ∈ sys.chunks, c.id ∉ sys.toFree → sys.reservedChunk ≠ some c.id →
    ∀ k, (sys.pcpuSlot k).count c.id = if k = sys.pcpuChunkSlot c.chunk then 1 else 0
  known : ∀ k, ∀ id ∈ sys.pcpuSlot k, ∃ c ∈ sys.chunks, c.id = id
  away : ∀ id, id ∈ sys.toFree ∨ sys.reservedChunk = some id → ∀ k, id ∉ sys.pcpuSlot k
  once : sys.toFree.Nodup
  freed : ∀ id ∈ sys.toFree, ∃ c ∈ sys.chunks, c.id = id
  stays : ∀ id, sys.reservedChunk = some id → ∃ c ∈ sys.chunks, c.id = id

section

variable {sys : System} (lists : Lists sys)

include lists

theorem Lists.unique {c d : ManagedChunk} (hc : c ∈ sys.chunks) (hd : d ∈ sys.chunks) (same : c.id = d.id) : c = d :=
  List.inj_on_of_nodup_map lists.ids hc hd same

/-- A chunk on a slot is on the slot of its free bytes. -/
theorem Lists.slot_eq {c : ManagedChunk} (member : c ∈ sys.chunks) {k : Nat} (listed : c.id ∈ sys.pcpuSlot k) :
    k = sys.pcpuChunkSlot c.chunk := by
  have notFree : c.id ∉ sys.toFree := fun free => lists.away c.id (.inl free) k listed
  have serves : sys.reservedChunk ≠ some c.id := fun reserved => lists.away c.id (.inr reserved) k listed
  by_contra other
  have count := lists.onSlot c member notFree serves k
  rw [if_neg other] at count
  exact List.count_eq_zero.mp count listed

omit lists in
theorem find_some {id : Nat} {c : ManagedChunk} (found : sys.find id = some c) : c ∈ sys.chunks ∧ c.id = id :=
  ⟨List.mem_of_find?_eq_some found, by simpa using List.find?_some found⟩

end

/-! ## Replacing a chunk -/

section

variable {sys : System} {c c' : ManagedChunk} (lists : Lists sys) (member : c ∈ sys.chunks) (same : c'.id = c.id)

theorem mem_setChunk {d : ManagedChunk} : d ∈ (sys.setChunk c').chunks ↔
    (d = c' ∧ ∃ c ∈ sys.chunks, c.id = c'.id) ∨ (d ∈ sys.chunks ∧ d.id ≠ c'.id) := by
  simp only [setChunk, List.mem_map]
  constructor
  · rintro ⟨e, he, rfl⟩
    split
    · rename_i here
      exact .inl ⟨rfl, e, he, here⟩
    · rename_i other
      exact .inr ⟨he, other⟩
  · rintro (⟨rfl, e, he, here⟩ | ⟨hd, other⟩)
    · exact ⟨e, he, if_pos here⟩
    · exact ⟨d, hd, if_neg other⟩

theorem ids_setChunk : (sys.setChunk c').chunks.map ManagedChunk.id = sys.chunks.map ManagedChunk.id := by
  rw [setChunk, List.map_map]
  refine List.map_congr_left (fun d _ => ?_)
  simp only [Function.comp_apply]
  split
  · rename_i here
    exact here.symm
  · rfl

include lists member same

/-- The chunk that was replaced is the only one with its address. -/
theorem Lists.mem_replaced {d : ManagedChunk} : d ∈ (sys.setChunk c').chunks ↔ d = c' ∨ (d ∈ sys.chunks ∧ d ≠ c) := by
  rw [mem_setChunk]
  constructor
  · rintro (⟨new, -⟩ | ⟨old, other⟩)
    · exact .inl new
    · refine .inr ⟨old, fun e => other ?_⟩
      rw [e, same]
  · rintro (new | ⟨old, other⟩)
    · exact .inl ⟨new, c, member, same.symm⟩
    · exact .inr ⟨old, fun e => other (lists.unique old member (e.trans same))⟩

/-- An address that has a chunk still has one. -/
theorem Lists.still {id : Nat} (there : ∃ d ∈ sys.chunks, d.id = id) : ∃ d ∈ (sys.setChunk c').chunks, d.id = id := by
  obtain ⟨d, hd, named⟩ := there
  by_cases this : d = c
  · exact ⟨c', (lists.mem_replaced member same).mpr (.inl rfl), by rw [same, ← named, this]⟩
  · exact ⟨d, (lists.mem_replaced member same).mpr (.inr ⟨hd, this⟩), named⟩

/-- Replacing a chunk and moving it to the slot of its free bytes keeps the lists right; the
    chunk may also stay where it is if its slot is the same. -/
theorem Lists.replaced {g p : Int} (notFree : c.id ∉ sys.toFree) :
    Lists ({ sys.setChunk c' with nrEmptyPopPages := g, nrPopulated := p }.pcpuChunkRelocate c.id c'.chunk
      (sys.pcpuChunkSlot c.chunk)) := by
  have moved := @relocate_eq { sys.setChunk c' with nrEmptyPopPages := g, nrPopulated := p } c.id c'.chunk
    (sys.pcpuChunkSlot c.chunk)
  have toFree := @relocate_toFree { sys.setChunk c' with nrEmptyPopPages := g, nrPopulated := p } c.id c'.chunk
    (sys.pcpuChunkSlot c.chunk) notFree
  have others (x : Nat) (ne : x ≠ c.id) (k : Nat) :=
    @relocate_count_ne { sys.setChunk c' with nrEmptyPopPages := g, nrPopulated := p } c.id c'.chunk
      (sys.pcpuChunkSlot c.chunk) x ne k
  have mine (serves : sys.reservedChunk ≠ some c.id) (k : Nat) :=
    @relocate_count { sys.setChunk c' with nrEmptyPopPages := g, nrPopulated := p } c.id c'.chunk
      (sys.pcpuChunkSlot c.chunk) serves (fun k => by
        simp only [Nat.cast_inj]
        exact lists.onSlot c member notFree serves k) k
  have still (reserved : sys.reservedChunk = some c.id) :=
    @relocate_reserved { sys.setChunk c' with nrEmptyPopPages := g, nrPopulated := p } c.id c'.chunk
      (sys.pcpuChunkSlot c.chunk) reserved
  obtain ⟨slots, freed, eq⟩ := moved
  rw [eq] at toFree others mine still ⊢
  simp only at toFree others mine
  have here (d : ManagedChunk) : d ∈ (sys.setChunk c').chunks ↔ d = c' ∨ (d ∈ sys.chunks ∧ d ≠ c) :=
    lists.mem_replaced member same
  refine ⟨?_, ?_, ?_, ?_, ?_, ?_, ?_⟩
  · change ((sys.setChunk c').chunks.map _).Nodup
    rw [ids_setChunk]
    exact lists.ids
  · intro d hd away serves k
    rcases (here d).mp hd with rfl | ⟨old, ne⟩
    · rw [same] at serves ⊢
      exact mine serves k
    · simp only [toFree] at away
      rw [others d.id (fun e => ne (lists.unique old member e)) k]
      exact lists.onSlot d old away serves k
  · intro k id listed
    by_cases this : id = c.id
    · exact ⟨c', (here c').mpr (.inl rfl), same.trans this.symm⟩
    · have before : id ∈ sys.pcpuSlot k := by
        have pos := List.count_pos_iff.mpr listed
        rw [others id this k] at pos
        exact List.count_pos_iff.mp pos
      exact lists.still member same (lists.known k id before)
  · intro id off k listed
    simp only [toFree] at off
    by_cases this : id = c.id
    · subst this
      rcases off with free | reserved
      · exact notFree free
      · have unmoved := congrArg (fun s : System => s.pcpuSlot k) (still reserved)
        simp only at unmoved listed
        rw [unmoved] at listed
        exact lists.away c.id (.inr reserved) k listed
    · have before : id ∈ sys.pcpuSlot k := by
        have pos := List.count_pos_iff.mpr listed
        rw [others id this k] at pos
        exact List.count_pos_iff.mp pos
      exact lists.away id off k before
  · simp only [toFree]
    exact lists.once
  · intro id free
    simp only [toFree] at free
    exact lists.still member same (lists.freed id free)
  · intro id reserved
    exact lists.still member same (lists.stays id reserved)

end

end Miracle.Percpu.System
