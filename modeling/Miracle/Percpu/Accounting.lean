import Miracle.Percpu.FirstChunk
import Miracle.Percpu.SystemSound

/-! # Empty populated pages are accounted for

Chunks are made and destroyed.  A destroyed chunk has given back its pages before, and the
count of the system has followed.
-/

namespace Miracle.Percpu.System

open BitScan

section

variable {sys : System} (ok : Sound sys)

include ok

/-! ## A new chunk -/

omit ok in
theorem later_sound (id unitPages : Nat) (beyond : Bitmap) :
    (⟨id, pcpuAllocChunk unitPages beyond, false, 0, []⟩ : ManagedChunk).Sound unitPages := by
  obtain ⟨chunk, areas, -⟩ := created_ok (.later unitPages beyond)
  have none : Clear (pcpuAllocChunk unitPages beyond).populated 0 unitPages := fun _ _ _ => rfl
  exact ⟨⟨chunk, areas⟩, (bitmapWeight_empty none).symm, fun _ => ⟨rfl, rfl, rfl⟩,
    fun _ _ => ⟨rfl, rfl, (bitmapWeight_empty none).symm⟩, nofun⟩

theorem Sound.create {id : Nat} (beyond : Bitmap) (unused : ∀ c ∈ sys.chunks, c.id ≠ id) :
    Sound (sys.createChunk id beyond) := by
  have unlisted (k : Nat) : id ∉ sys.pcpuSlot k := fun listed => by
    obtain ⟨c, hc, named⟩ := ok.lists.known k id listed
    exact unused c hc named
  have notFree : id ∉ sys.toFree := fun free => by
    obtain ⟨c, hc, named⟩ := ok.lists.freed id free
    exact unused c hc named
  have serves : sys.reservedChunk ≠ some id := fun reserved => by
    obtain ⟨c, hc, named⟩ := ok.lists.stays id reserved
    exact unused c hc named
  let new : ManagedChunk := ⟨id, pcpuAllocChunk sys.unitPages beyond, false, 0, []⟩
  let grown : System := { sys with chunks := new :: sys.chunks }
  have others (x : Nat) (ne : x ≠ id) (k : Nat) := @relocate_count_ne grown id new.chunk (-1) x ne k
  have mine (k : Nat) := @relocate_count grown id new.chunk (-1) serves (fun k => by
    rw [List.count_eq_zero.mpr (unlisted k), if_neg (by omega)]) k
  have toFree := @relocate_toFree grown id new.chunk (-1) notFree
  obtain ⟨slots, freed, eq⟩ := @relocate_eq grown id new.chunk (-1)
  change Sound (grown.pcpuChunkRelocate id new.chunk (-1))
  rw [eq] at toFree others mine ⊢
  simp only at toFree others mine
  have named (c : ManagedChunk) (hc : c ∈ new :: sys.chunks) : c = new ∨ (c ∈ sys.chunks ∧ c.id ≠ id) := by
    rcases List.mem_cons.mp hc with this | old
    · exact .inl this
    · exact .inr ⟨old, unused c old⟩
  have there {x : Nat} (old : ∃ c ∈ sys.chunks, c.id = x) : ∃ c ∈ new :: sys.chunks, c.id = x := by
    obtain ⟨c, hc, is⟩ := old
    exact ⟨c, List.mem_cons_of_mem _ hc, is⟩
  refine ⟨ok.unit, ⟨?_, ?_, ?_, ?_, ?_, ?_, ?_⟩, ?_, ?_, ?_, ?_, ?_⟩
  · change (id :: sys.chunks.map ManagedChunk.id).Nodup
    refine List.nodup_cons.mpr ⟨fun used => ?_, ok.lists.ids⟩
    obtain ⟨c, hc, is⟩ := List.mem_map.mp used
    exact unused c hc is
  · intro c hc away reserved k
    simp only [toFree] at away
    rcases named c hc with rfl | ⟨old, ne⟩
    · exact mine k
    · rw [others c.id ne k]
      exact ok.lists.onSlot c old away reserved k
  · intro k x listed
    by_cases this : x = id
    · exact ⟨new, List.mem_cons_self, this.symm⟩
    · have pos := List.count_pos_iff.mpr listed
      rw [others x this k] at pos
      exact there (ok.lists.known k x (List.count_pos_iff.mp pos))
  · intro x off k listed
    simp only [toFree] at off
    have this : x ≠ id := by
      rintro rfl
      rcases off with free | reserved
      · exact notFree free
      · exact serves reserved
    have pos := List.count_pos_iff.mpr listed
    rw [others x this k] at pos
    exact ok.lists.away x off k (List.count_pos_iff.mp pos)
  · simp only [toFree]
    exact ok.lists.once
  · intro x free
    simp only [toFree] at free
    exact there (ok.lists.freed x free)
  · exact fun x reserved => there (ok.lists.stays x reserved)
  · intro c hc
    rcases named c hc with rfl | ⟨old, -⟩
    · exact later_sound id sys.unitPages beyond
    · exact ok.chunks c old
  · intro c hc free
    simp only [toFree] at free
    rcases named c hc with rfl | ⟨old, -⟩
    · exact ⟨rfl, rfl⟩
    · exact ok.empty c old free
  · intro c hc reserved
    rcases named c hc with rfl | ⟨old, -⟩
    · exact absurd reserved serves
    · exact ok.reserved c old reserved
  · intro c hc rest first
    simp only [toFree] at first
    rcases named c hc with rfl | ⟨old, -⟩
    · exact absurd (first ▸ List.mem_cons_self) notFree
    · exact ok.cursor c old rest first
  · have sum := ok.total
    rw [emptyPopPages] at sum
    change sys.nrEmptyPopPages = (((new :: sys.chunks).filter fun c => sys.reservedChunk ≠ some c.id).map
      fun c => (c.chunk.nrEmptyPopPages : Int)).sum
    rw [List.filter_cons, if_pos (by simpa using serves), List.map_cons, List.sum_cons, sum]
    exact (Int.zero_add _).symm

/-! ## Chunks that go away -/

/-- The chunks of the last slot were made at run time and have no areas. -/
theorem Sound.last_empty {c : ManagedChunk} (member : c ∈ sys.chunks) (listed : c.id ∈ sys.pcpuSlot (sys.nrSlots - 1)) :
    c.immutable = false ∧ c.live = [] := by
  have slot := ok.lists.slot_eq member listed
  have sound := ok.chunks c member
  exact sound.empty_of_freeBytes (freeBytes_of_last sys sound.freeBytes_le slot.symm).1

/-- A slot has no chunk twice. -/
theorem Sound.slot_nodup (k : Nat) : (sys.pcpuSlot k).Nodup := by
  rw [List.nodup_iff_count_le_one]
  intro id
  by_cases listed : id ∈ sys.pcpuSlot k
  · obtain ⟨c, hc, rfl⟩ := ok.lists.known k id listed
    have count := ok.lists.onSlot c hc (ok.listed_notFree listed) (fun reserved => ok.lists.away c.id (.inr reserved) k listed) k
    rw [count]
    split <;> omega
  · rw [List.count_eq_zero.mpr listed]
    exact Nat.zero_le 1

theorem Sound.spared (idle : sys.toFree = []) : Sound sys.spareFirst := by
  unfold spareFirst
  cases last : sys.pcpuSlot (sys.nrSlots - 1) with
  | nil => exact ok
  | cons first rest =>
      have nodup := ok.slot_nodup (sys.nrSlots - 1)
      rw [last] at nodup
      obtain ⟨fresh, once⟩ := List.nodup_cons.mp nodup
      have onLast {id : Nat} (member : id ∈ rest) : id ∈ sys.pcpuSlot (sys.nrSlots - 1) := by
        rw [last]
        exact List.mem_cons_of_mem _ member
      have before {id k : Nat} (listed : id ∈ if k = sys.nrSlots - 1 then [first] else sys.pcpuSlot k) : id ∈ sys.pcpuSlot k := by
        split at listed
        · rename_i here
          rw [here, last, List.mem_singleton.mp listed]
          exact List.mem_cons_self
        · exact listed
      simp only [idle, List.append_nil]
      refine ⟨ok.unit, ⟨ok.lists.ids, ?_, fun k id listed => ok.lists.known k id (before listed), ?_,
        List.nodup_reverse.mpr once, ?_, ok.lists.stays⟩, ok.chunks, ?_, ok.reserved, ?_, ok.total⟩
      · intro c hc away serves k
        have notIn : c.id ∉ rest := fun member => away (List.mem_reverse.mpr member)
        have count := ok.lists.onSlot c hc (by rw [idle]; exact List.not_mem_nil) serves k
        simp only
        split
        · rename_i here
          rw [here, last, List.count_cons, List.count_eq_zero.mpr notIn, Nat.zero_add] at count
          rw [here, List.count_cons, List.count_nil, Nat.zero_add]
          exact count
        · exact count
      · rintro id (free | reserved) k listed
        · have gone := onLast (List.mem_reverse.mp free)
          obtain ⟨c, hc, rfl⟩ := ok.lists.known _ id gone
          have here := ok.lists.slot_eq hc gone
          have there := ok.lists.slot_eq hc (before listed)
          simp only at listed
          rw [if_pos (there.trans here.symm)] at listed
          rw [List.mem_singleton.mp listed] at free
          exact fresh (List.mem_reverse.mp free)
        · exact ok.lists.away id (.inr reserved) k (before listed)
      · exact fun id free => ok.lists.known _ id (onLast (List.mem_reverse.mp free))
      · exact fun c hc free => ok.last_empty hc (onLast (List.mem_reverse.mp free))
      · intro c _ others _ i below
        exact absurd below (Nat.not_lt_zero i)

theorem Sound.destroyed {c : ManagedChunk} {rest : List Nat} {rs re : Nat} (member : c ∈ sys.chunks)
    (first : sys.toFree = c.id :: rest)
    (region : pcpuNextPop c.chunk.populated sys.reclaimAt c.chunk.nrPages = (rs, re)) (none : ¬ rs < re) :
    Sound (sys.pcpuDestroyChunk c.id) := by
  have away := ok.lists.away c.id (.inl (first ▸ List.mem_cons_self))
  have once := ok.lists.once
  rw [first] at once
  obtain ⟨fresh, once⟩ := List.nodup_cons.mp once
  have serves := ok.first_serves member first
  have left (x : Nat) (ne : x ≠ c.id) (there : ∃ d ∈ sys.chunks, d.id = x) :
      ∃ d ∈ sys.chunks.filter fun d => d.id ≠ c.id, d.id = x := by
    obtain ⟨d, hd, named⟩ := there
    exact ⟨d, List.mem_filter.mpr ⟨hd, by simpa [named] using ne⟩, named⟩
  have still {d : ManagedChunk} (hd : d ∈ sys.chunks.filter fun d => d.id ≠ c.id) : d ∈ sys.chunks ∧ d.id ≠ c.id := by
    simpa using List.mem_filter.mp hd
  unfold pcpuDestroyChunk
  rw [first, List.erase_cons_head]
  refine ⟨ok.unit, ⟨?_, ?_, ?_, ?_, once, ?_, ?_⟩, ?_, ?_, ?_, ?_, ?_⟩
  · exact ok.lists.ids.sublist (List.filter_sublist.map _)
  · intro d hd notFree reserved k
    obtain ⟨old, ne⟩ := still hd
    refine ok.lists.onSlot d old ?_ reserved k
    rw [first]
    exact List.not_mem_cons_of_ne_of_not_mem ne notFree
  · intro k x listed
    exact left x (fun this => away k (this ▸ listed)) (ok.lists.known k x listed)
  · intro x off k
    refine ok.lists.away x (off.imp_left fun free => ?_) k
    rw [first]
    exact List.mem_cons_of_mem _ free
  · intro x free
    exact left x (fun this => fresh (this ▸ free)) (ok.lists.freed x (first ▸ List.mem_cons_of_mem _ free))
  · exact fun x reserved => left x (fun this => serves (this ▸ reserved)) (ok.lists.stays x reserved)
  · exact fun d hd => ok.chunks d (still hd).1
  · exact fun d hd free => ok.empty d (still hd).1 (first ▸ List.mem_cons_of_mem _ free)
  · exact fun d hd => ok.reserved d (still hd).1
  · intro d _ others _ i below
    exact absurd below (Nat.not_lt_zero i)
  · have empty := (ok.drained member first region none).1
    refine ok.total.trans ?_
    rw [emptyPopPages, emptyPopPages]
    have sums (l : List ManagedChunk) (all : ∀ d ∈ l, d ∈ sys.chunks) :
        ((l.filter fun d => sys.reservedChunk ≠ some d.id).map fun d => (d.chunk.nrEmptyPopPages : Int)).sum =
          (((l.filter fun d => d.id ≠ c.id).filter fun d => sys.reservedChunk ≠ some d.id).map
            fun d => (d.chunk.nrEmptyPopPages : Int)).sum := by
      induction l with
      | nil => rfl
      | cons d l ih =>
          have next := ih fun e he => all e (List.mem_cons_of_mem _ he)
          by_cases this : d.id = c.id
          · have same := ok.lists.unique (all d List.mem_cons_self) member this
            subst same
            simp only [List.filter_cons, ne_eq, not_true_eq_false, decide_false, Bool.false_eq_true, if_false]
            rw [if_pos (by simpa using serves), List.map_cons, List.sum_cons, empty, Nat.cast_zero, Int.zero_add]
            simpa using next
          · simp only [List.filter_cons, ne_eq, this, not_false_eq_true, decide_true, if_true]
            split
            · rw [List.map_cons, List.map_cons, List.sum_cons, List.sum_cons]
              exact congrArg _ (by simpa using next)
            · simpa using next
    exact sums sys.chunks fun d hd => hd

theorem Sound.step {sys' : System} (taken : Step sys sys') : Sound sys' := by
  cases taken with
  | alloc accepted found => exact ok.alloc accepted found
  | free member live => exact ok.free member live
  | populateArea member live pages _ =>
      exact ok.populated member (ok.live_notFree member live) pages (fun _ none => by rw [none] at live; cases live) nofun
  | populate member listed pages =>
      exact ok.populated member (ok.listed_notFree listed) pages nofun
        (fun _ reserved => ok.lists.away _ (.inr reserved) _ listed)
  | create beyond unused => exact ok.create beyond unused
  | spareFirst idle => exact ok.spared idle
  | depopulate member first region some => exact ok.depopulated member first region some
  | destroy member first region none => exact ok.destroyed member first region none
  | elsewhere beyond member => exact ok.elsewhere beyond member

end

/-! ## The first chunk -/

theorem first_populated (tmpAddr mapSize : Nat) (beyond : Bitmap) :
    (pcpuAllocFirstChunk tmpAddr mapSize beyond).populated =
      fun i => decide (i < (pcpuAllocFirstChunk tmpAddr mapSize beyond).nrPages) := by
  have head : (hideHead (firstZeroed tmpAddr mapSize beyond)).populated = (firstZeroed tmpAddr mapSize beyond).populated := by
    rw [hideHead_eq]
    split
    · obtain ⟨a, b, n, updated⟩ := hintAlloc_hint (headBits (firstZeroed tmpAddr mapSize beyond)) 0
        ((firstZeroed tmpAddr mapSize beyond).startOffset / minAllocSize)
      rw [updated]
      rfl
    · rfl
  have tail (chunk : PcpuChunk) : (hideTail chunk mapSize).populated = chunk.populated := by
    rw [hideTail_eq]
    split
    · obtain ⟨a, b, n, updated⟩ := hintAlloc_hint (tailBits chunk mapSize)
        (chunk.mapBits - chunk.endOffset / minAllocSize) (chunk.endOffset / minAllocSize)
      rw [updated]
      rfl
    · rfl
  rw [first_nrPages, first_eq, tail, head]
  rfl

theorem firstChunk_sound (id : Nat) {unitPages tmpAddr mapSize : Nat} (beyond : Bitmap) (addr : minAllocSize ∣ tmpAddr)
    (size : minAllocSize ∣ mapSize) (part : mapSize < unitPages * pageSize) :
    (firstChunk id tmpAddr mapSize beyond).Sound unitPages := by
  obtain ⟨chunk, areas, -⟩ := first_ok beyond addr size
  have region := first_sizes tmpAddr mapSize beyond
  have populated := first_populated tmpAddr mapSize beyond
  refine ⟨⟨chunk, areas⟩, ?_, nofun, nofun, fun _ => ?_⟩
  · refine (bitmapWeight_full fun i below => ?_).symm
    change (pcpuAllocFirstChunk tmpAddr mapSize beyond).populated i = true
    rw [populated]
    exact decide_eq_true below
  · have stop := first_regionEnd tmpAddr mapSize beyond
    have start : (pcpuAllocFirstChunk tmpAddr mapSize beyond).startOffset = tmpAddr % pageSize := region.start
    change (pcpuAllocFirstChunk tmpAddr mapSize beyond).regionEnd -
      (pcpuAllocFirstChunk tmpAddr mapSize beyond).startOffset < _
    omega

/-- The first chunk is put on its slot; beside it there is at most the reserved chunk. -/
theorem linked_sound {sys : System} {first : ManagedChunk} {others : List ManagedChunk} (unit : minUnitSize ≤ sys.unitSize)
    (chunks : sys.chunks = first :: others) (slots : ∀ k, sys.pcpuSlot k = []) (idle : sys.toFree = [])
    (beside : others = [] ∧ sys.reservedChunk = none ∨ ∃ c, others = [c] ∧ sys.reservedChunk = some c.id ∧ c.id ≠ first.id)
    (sound : ∀ c ∈ sys.chunks, c.Sound sys.unitPages) (immutable : ∀ c ∈ sys.chunks, c.immutable = true)
    (total : sys.nrEmptyPopPages = first.chunk.nrEmptyPopPages) :
    Sound (sys.pcpuChunkRelocate first.id first.chunk (-1)) := by
  have serves : sys.reservedChunk ≠ some first.id := by
    rcases beside with ⟨-, none⟩ | ⟨c, -, reserved, ne⟩
    · rw [none]
      nofun
    · rw [reserved]
      exact fun same => ne (Option.some.inj same)
  have notFree : first.id ∉ sys.toFree := by
    rw [idle]
    exact List.not_mem_nil
  have mine (k : Nat) := @relocate_count sys first.id first.chunk (-1) serves (fun k => by
    rw [slots, List.count_nil, if_neg (by omega)]) k
  have elsewhere (x : Nat) (ne : x ≠ first.id) (k : Nat) := @relocate_count_ne sys first.id first.chunk (-1) x ne k
  have toFree := @relocate_toFree sys first.id first.chunk (-1) notFree
  obtain ⟨moved, freed, eq⟩ := @relocate_eq sys first.id first.chunk (-1)
  rw [eq] at mine elsewhere toFree ⊢
  simp only [slots, List.count_nil, idle] at mine elsewhere toFree
  subst toFree
  have only {k x : Nat} (listed : x ∈ moved k) : x = first.id := by
    by_contra ne
    have pos := List.count_pos_iff.mpr listed
    rw [elsewhere x ne k] at pos
    exact Nat.lt_irrefl 0 pos
  have others_reserved (c : ManagedChunk) (hc : c ∈ others) : sys.reservedChunk = some c.id := by
    rcases beside with ⟨none, -⟩ | ⟨d, is, reserved, -⟩
    · rw [none] at hc
      cases hc
    · rw [is, List.mem_singleton] at hc
      rw [hc, reserved]
  refine ⟨unit, ⟨?_, ?_, ?_, ?_, List.nodup_nil, nofun, ?_⟩, sound, fun _ _ => nofun, fun c hc _ => immutable c hc,
    fun _ _ _ => nofun, ?_⟩
  · change (sys.chunks.map ManagedChunk.id).Nodup
    rw [chunks]
    rcases beside with ⟨rfl, -⟩ | ⟨c, rfl, -, ne⟩
    · simp
    · simpa using ne.symm
  · intro c hc _ reserved k
    change c ∈ sys.chunks at hc
    rw [chunks] at hc
    rcases List.mem_cons.mp hc with rfl | other
    · exact mine k
    · exact absurd (others_reserved c other) reserved
  · intro k x listed
    refine ⟨first, ?_, (only listed).symm⟩
    change first ∈ sys.chunks
    rw [chunks]
    exact List.mem_cons_self
  · rintro x (free | reserved) k listed
    · cases free
    · rw [only listed] at reserved
      exact serves reserved
  · intro x reserved
    change ∃ c ∈ sys.chunks, c.id = x
    change sys.reservedChunk = some x at reserved
    rcases beside with ⟨-, none⟩ | ⟨c, is, there, -⟩
    · rw [none] at reserved
      cases reserved
    · rw [there] at reserved
      refine ⟨c, ?_, Option.some.inj reserved⟩
      rw [chunks, is]
      exact List.mem_cons_of_mem _ List.mem_cons_self
  · change sys.nrEmptyPopPages = ((sys.chunks.filter fun c => sys.reservedChunk ≠ some c.id).map
      fun c => (c.chunk.nrEmptyPopPages : Int)).sum
    have none : (others.filter fun c => sys.reservedChunk ≠ some c.id) = [] :=
      List.filter_eq_nil_iff.mpr fun c hc => by simpa using others_reserved c hc
    rw [chunks, List.filter_cons, if_pos (by simpa using serves), none, total]
    simp

theorem setup_sound (sizes : Sizes) {baseAddr : Nat} (beyond : Bitmap) (aligned : pageSize ∣ baseAddr) :
    Sound (setupFirstChunk sizes baseAddr beyond) := by
  have static := sizes.static_pos
  have room := sizes.room
  have reservedUnits := sizes.reservedUnits
  have pages := sizes.pages
  have early := sizes.early
  have up : align sizes.staticSize minAllocSize = (sizes.staticSize + 3) / 4 * 4 := rfl
  have addr : minAllocSize ∣ baseAddr + align sizes.staticSize minAllocSize := by
    rw [up]
    simp only [pageSize, minAllocSize] at *
    omega
  have addr' : minAllocSize ∣ baseAddr + align sizes.staticSize minAllocSize + sizes.reservedSize :=
    Dvd.dvd.add addr reservedUnits
  have size : minAllocSize ∣ sizes.dynSize - (align sizes.staticSize minAllocSize - sizes.staticSize) := by
    rw [up]
    simp only [pageSize, minAllocSize, dynamicEarlySize] at *
    omega
  have first := @firstChunk_sound 0 sizes.unitPages _ _ beyond addr' size (by omega)
  unfold setupFirstChunk
  simp only
  split
  · refine @linked_sound _ (firstChunk 0 _ _ beyond) [firstChunk 1 _ sizes.reservedSize beyond] sizes.minUnit rfl
      (fun _ => rfl) rfl (.inr ⟨_, rfl, rfl, Nat.one_ne_zero⟩) ?_ ?_ rfl
    · simp only [List.forall_mem_cons, List.not_mem_nil, false_imp_iff, implies_true, and_true]
      exact ⟨first, firstChunk_sound 1 beyond addr reservedUnits (by omega)⟩
    · simp [firstChunk]
  · refine @linked_sound _ (firstChunk 0 _ _ beyond) [] sizes.minUnit rfl (fun _ => rfl) rfl (.inl ⟨rfl, rfl⟩) ?_ ?_ rfl
    · simpa using first
    · simp [firstChunk]

/-! ## Runs -/

theorem Reachable.sound {sys : System} (run : Reachable sys) : Sound sys := by
  induction run with
  | setup sizes beyond aligned => exact setup_sound sizes beyond aligned
  | step _ taken ok => exact ok.step taken

/-- The count of the system is the sum over the chunks, the pages of each chunk are those of its
    bitmap, and a chunk that is destroyed next has none left. -/
theorem empty_pop_pages_accounted {sys : System} (run : Reachable sys) :
    sys.nrEmptyPopPages =
        ((sys.chunks.filter fun c => sys.reservedChunk ≠ some c.id).map fun c => (c.chunk.nrEmptyPopPages : Int)).sum ∧
      (∀ c ∈ sys.chunks, c.nrPopulated = bitmapWeight c.chunk.populated c.chunk.nrPages) ∧
      ∀ c ∈ sys.chunks, ∀ rest rs re, sys.toFree = c.id :: rest →
        pcpuNextPop c.chunk.populated sys.reclaimAt c.chunk.nrPages = (rs, re) → ¬ rs < re →
        c.chunk.nrEmptyPopPages = 0 ∧ c.nrPopulated = 0 := by
  have ok := run.sound
  refine ⟨ok.total, fun c member => (ok.chunks c member).counted, ?_⟩
  intro c member rest rs re first region none
  exact ok.drained member first region none

/-- A unit of sixteen pages, six of them static. -/
def bootSizes : Sizes where
  unitPages := 16
  staticSize := 6 * pageSize
  reservedSize := 0
  dynSize := 10 * pageSize
  static_pos := by decide
  minUnit := by decide
  room := by decide
  reservedUnits := Nat.dvd_zero minAllocSize
  pages := by decide
  early := by decide

theorem createChunk_chunks (sys : System) (id : Nat) (beyond : Bitmap) : (sys.createChunk id beyond).chunks =
    ⟨id, pcpuAllocChunk sys.unitPages beyond, false, 0, []⟩ :: sys.chunks := by
  unfold createChunk pcpuChunkRelocate
  simp only
  split <;> rfl

theorem spareFirst_chunks (sys : System) : sys.spareFirst.chunks = sys.chunks := by
  unfold spareFirst
  split <;> rfl

/-- A chunk at 2 and another at 3. -/
def twoChunks : System :=
  ((setupFirstChunk bootSizes 0x1000000 fun _ => false).createChunk 2 fun _ => false).createChunk 3 fun _ => false

def chunkTwoMade : ManagedChunk := ⟨2, pcpuAllocChunk 16 fun _ => false, false, 0, []⟩

theorem mem_twoChunks : chunkTwoMade ∈ twoChunks.chunks := by
  rw [twoChunks, createChunk_chunks, createChunk_chunks]
  exact List.mem_cons_of_mem _ List.mem_cons_self

theorem twoChunks_reachable : Reachable twoChunks := by
  refine .step (.step (.setup bootSizes (fun _ => false) (by decide : pageSize ∣ 0x1000000)) (@Step.create _ 2 (fun _ => false) ?_))
    (@Step.create _ 3 (fun _ => false) ?_)
  · decide +kernel
  · decide +kernel

def populatedTwo : System := twoChunks.pcpuChunkPopulated chunkTwoMade 0 2 false

theorem populatedTwo_reachable : Reachable populatedTwo := by
  refine .step twoChunks_reachable (@Step.populate _ _ 15 _ _ mem_twoChunks ?_ ⟨by decide, by decide, fun _ _ _ => rfl⟩)
  decide +kernel

/-- The chunk at 2 with two pages. -/
def chunkTwo : ManagedChunk :=
  { chunkTwoMade with
    chunk := { chunkTwoMade.chunk with
      populated := bitmapSet chunkTwoMade.chunk.populated 0 (2 - 0)
      nrEmptyPopPages := chunkTwoMade.chunk.nrEmptyPopPages + if false = true then 0 else 2 - 0 }
    nrPopulated := chunkTwoMade.nrPopulated + (2 - 0) }

theorem mem_populatedTwo : chunkTwo ∈ populatedTwo.chunks := by
  refine (@mem_setChunk twoChunks chunkTwo chunkTwo).mpr (.inl ⟨rfl, chunkTwoMade, mem_twoChunks, rfl⟩)

/-- The work has given both pages back. -/
def reclaimed : System :=
  { populatedTwo.spareFirst.pcpuChunkDepopulated chunkTwo 0 2 with reclaimAt := 3 }

theorem reclaimed_reachable : Reachable reclaimed := by
  refine .step (.step populatedTwo_reachable (.spareFirst ?_)) (@Step.depopulate _ _ [] _ _ ?_ ?_ ?_ (by decide))
  · decide +kernel
  · rw [spareFirst_chunks]
    exact mem_populatedTwo
  · decide +kernel
  · decide +kernel

theorem reclaimed_accounted :
    reclaimed.nrEmptyPopPages =
        ((reclaimed.chunks.filter fun c => reclaimed.reservedChunk ≠ some c.id).map fun c => (c.chunk.nrEmptyPopPages : Int)).sum ∧
      reclaimed.toFree = [2] :=
  ⟨(empty_pop_pages_accounted reclaimed_reachable).1, by decide +kernel⟩

end Miracle.Percpu.System
