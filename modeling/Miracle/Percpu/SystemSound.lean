import Miracle.Percpu.ChunkSound

/-! # The system over whole runs

Every chunk is sound and in its place on the lists, a chunk on the way to destruction has no
areas, and the count of empty populated pages is the sum over the chunks.
-/

namespace Miracle.Percpu.System

open BitScan

/-- The empty populated pages of the chunks, but for the reserved one. -/
def emptyPopPages (sys : System) : Int :=
  ((sys.chunks.filter fun c => sys.reservedChunk ≠ some c.id).map fun c => (c.chunk.nrEmptyPopPages : Int)).sum

structure Sound (sys : System) : Prop where
  unit : minUnitSize ≤ sys.unitSize
  lists : Lists sys
  chunks : ∀ c ∈ sys.chunks, c.Sound sys.unitPages
  empty : ∀ c ∈ sys.chunks, c.id ∈ sys.toFree → c.immutable = false ∧ c.live = []
  reserved : ∀ c ∈ sys.chunks, sys.reservedChunk = some c.id → c.immutable = true
  cursor : ∀ c ∈ sys.chunks, ∀ rest, sys.toFree = c.id :: rest →
    ∀ i, i < sys.reclaimAt → i < c.chunk.nrPages → c.chunk.populated i = false
  total : sys.nrEmptyPopPages = sys.emptyPopPages

/-! ## Sums -/

/-- Replacing one chunk changes the sum by the difference. -/
theorem sum_replace {l : List ManagedChunk} {c c' : ManagedChunk} (nodup : (l.map ManagedChunk.id).Nodup) (member : c ∈ l)
    (same : c'.id = c.id) (serves : Nat → Bool) (f : ManagedChunk → Int) :
    (((l.map fun d => if d.id = c'.id then c' else d).filter fun d => serves d.id).map f).sum =
      ((l.filter fun d => serves d.id).map f).sum + if serves c.id then f c' - f c else 0 := by
  induction l with
  | nil => cases member
  | cons d l ih =>
      rw [List.map_cons, List.nodup_cons] at nodup
      obtain ⟨fresh, nodup⟩ := nodup
      rw [List.map_cons]
      by_cases here : d.id = c'.id
      · -- the rest of the list has other addresses
        have this : c = d := by
          rcases List.mem_cons.mp member with eq | old
          · exact eq
          · exact absurd (List.mem_map.mpr ⟨c, old, same.symm.trans here.symm⟩) fresh
        have rest : (l.map fun e => if e.id = c'.id then c' else e) = l := by
          refine (List.map_congr_left fun e he => if_neg fun same' => ?_).trans (List.map_id l)
          exact fresh (List.mem_map.mpr ⟨e, he, same'.trans here.symm⟩)
        rw [if_pos here, rest, this]
        simp only [List.filter_cons, ← here]
        cases serves d.id with
        | false => simp
        | true =>
            simp only [if_true, List.map_cons, List.sum_cons]
            omega
      · have old : c ∈ l := by
          rcases List.mem_cons.mp member with eq | old
          · exact absurd (eq ▸ same.symm) here
          · exact old
        have next := ih nodup old
        rw [if_neg here]
        simp only [List.filter_cons]
        split
        · rw [List.map_cons, List.map_cons, List.sum_cons, List.sum_cons, next]
          omega
        · exact next

theorem emptyPopPages_setChunk {sys : System} {c c' : ManagedChunk} (lists : Lists sys) (member : c ∈ sys.chunks)
    (same : c'.id = c.id) : (sys.setChunk c').emptyPopPages = sys.emptyPopPages +
      if sys.reservedChunk ≠ some c.id then (c'.chunk.nrEmptyPopPages - c.chunk.nrEmptyPopPages : Int) else 0 := by
  have sum := sum_replace lists.ids member same (fun id => sys.reservedChunk ≠ some id) (fun c => (c.chunk.nrEmptyPopPages : Int))
  rw [emptyPopPages, emptyPopPages]
  refine sum.trans (congrArg _ ?_)
  simp only [decide_eq_true_eq]

/-! ## Replacing a chunk -/

section

variable {sys : System} {c c' : ManagedChunk} (ok : Sound sys) (member : c ∈ sys.chunks) (same : c'.id = c.id)
  (first : c'.immutable = c.immutable) (sound : c'.Sound sys.unitPages)

include ok member same first sound

/-- A system in which a chunk was replaced, with the lists in order. -/
theorem Sound.replaced {sys' : System} (unitPages : sys'.unitPages = sys.unitPages)
    (chunks : sys'.chunks = (sys.setChunk c').chunks) (toFree : sys'.toFree = sys.toFree)
    (reserved : sys'.reservedChunk = sys.reservedChunk) (lists : Lists sys')
    (empty : c.id ∈ sys.toFree → c'.live = [])
    (cursor : ∀ rest, sys.toFree = c.id :: rest →
      ∀ i, i < sys'.reclaimAt → i < c'.chunk.nrPages → c'.chunk.populated i = false)
    (others : (∀ rest, sys.toFree ≠ c.id :: rest) → sys'.reclaimAt = sys.reclaimAt)
    (total : sys'.nrEmptyPopPages = sys.nrEmptyPopPages +
      if sys.reservedChunk ≠ some c.id then (c'.chunk.nrEmptyPopPages - c.chunk.nrEmptyPopPages : Int) else 0) :
    Sound sys' := by
  have here (d : ManagedChunk) : d ∈ sys'.chunks ↔ d = c' ∨ (d ∈ sys.chunks ∧ d ≠ c) := by
    rw [chunks]
    exact ok.lists.mem_replaced member same
  refine ⟨?_, lists, ?_, ?_, ?_, ?_, ?_⟩
  · rw [unitSize, unitPages]
    exact ok.unit
  · intro d hd
    rw [unitPages]
    rcases (here d).mp hd with rfl | ⟨old, -⟩
    · exact sound
    · exact ok.chunks d old
  · intro d hd free
    rw [toFree] at free
    rcases (here d).mp hd with rfl | ⟨old, -⟩
    · rw [same] at free
      exact ⟨first.trans (ok.empty c member free).1, empty free⟩
    · exact ok.empty d old free
  · intro d hd is
    rw [reserved] at is
    rcases (here d).mp hd with rfl | ⟨old, -⟩
    · rw [same] at is
      exact first.trans (ok.reserved c member is)
    · exact ok.reserved d old is
  · intro d hd rest is
    rw [toFree] at is
    rcases (here d).mp hd with rfl | ⟨old, ne⟩
    · rw [same] at is
      exact cursor rest is
    · have unmoved : sys'.reclaimAt = sys.reclaimAt := by
        refine others (fun rest' is' => ne (ok.lists.unique old member ?_))
        rw [is] at is'
        exact (List.cons.inj is').1
      rw [unmoved]
      exact ok.cursor d old rest is
  · have sum := emptyPopPages_setChunk ok.lists member same
    have names : sys'.emptyPopPages = (sys.setChunk c').emptyPopPages := by
      rw [emptyPopPages, emptyPopPages, chunks, reserved]
      rfl
    rw [total, names, sum, ok.total]

/-- The pages or the memory of a chunk changed, but not its slot. -/
theorem Sound.kept {g p : Int} {at_ : Nat} (slot : sys.pcpuChunkSlot c'.chunk = sys.pcpuChunkSlot c.chunk)
    (empty : c.id ∈ sys.toFree → c'.live = [])
    (cursor : ∀ rest, sys.toFree = c.id :: rest → ∀ i, i < at_ → i < c'.chunk.nrPages → c'.chunk.populated i = false)
    (others : (∀ rest, sys.toFree ≠ c.id :: rest) → at_ = sys.reclaimAt)
    (total : g = sys.nrEmptyPopPages +
      if sys.reservedChunk ≠ some c.id then (c'.chunk.nrEmptyPopPages - c.chunk.nrEmptyPopPages : Int) else 0) :
    Sound { sys.setChunk c' with nrEmptyPopPages := g, nrPopulated := p, reclaimAt := at_ } := by
  refine ok.replaced member same first sound rfl rfl rfl rfl ?_ empty cursor others total
  have here (d : ManagedChunk) : d ∈ (sys.setChunk c').chunks ↔ d = c' ∨ (d ∈ sys.chunks ∧ d ≠ c) :=
    ok.lists.mem_replaced member same
  refine ⟨?_, ?_, ?_, ok.lists.away, ok.lists.once, ?_, ?_⟩
  · change ((sys.setChunk c').chunks.map _).Nodup
    rw [ids_setChunk]
    exact ok.lists.ids
  · intro d hd away serves k
    rcases (here d).mp hd with rfl | ⟨old, -⟩
    · rw [same] at away serves ⊢
      change (sys.pcpuSlot k).count c.id = if k = sys.pcpuChunkSlot d.chunk then 1 else 0
      rw [slot]
      exact ok.lists.onSlot c member away serves k
    · exact ok.lists.onSlot d old away serves k
  · exact fun k id listed => ok.lists.still member same (ok.lists.known k id listed)
  · exact fun id free => ok.lists.still member same (ok.lists.freed id free)
  · exact fun id reserved => ok.lists.still member same (ok.lists.stays id reserved)

omit first sound same in
/-- An area of the chunk came or went. -/
theorem Sound.changed {chunk : PcpuChunk} {live : List Area} (notFree : c.id ∉ sys.toFree)
    (sound : ({ c with chunk := chunk, live := live } : ManagedChunk).Sound sys.unitPages) :
    Sound (sys.changed c chunk live) := by
  have lists := @Lists.replaced sys c { c with chunk := chunk, live := live } ok.lists member rfl
    (if sys.reservedChunk ≠ some c.id then sys.nrEmptyPopPages + (chunk.nrEmptyPopPages - c.chunk.nrEmptyPopPages)
      else sys.nrEmptyPopPages) sys.nrPopulated notFree
  have toFree := @relocate_toFree { sys.setChunk { c with chunk := chunk, live := live } with
    nrEmptyPopPages := if sys.reservedChunk ≠ some c.id then
      sys.nrEmptyPopPages + (chunk.nrEmptyPopPages - c.chunk.nrEmptyPopPages) else sys.nrEmptyPopPages }
    c.id chunk (sys.pcpuChunkSlot c.chunk) notFree
  obtain ⟨slots, freed, eq⟩ := @relocate_eq { sys.setChunk { c with chunk := chunk, live := live } with
    nrEmptyPopPages := if sys.reservedChunk ≠ some c.id then
      sys.nrEmptyPopPages + (chunk.nrEmptyPopPages - c.chunk.nrEmptyPopPages) else sys.nrEmptyPopPages }
    c.id chunk (sys.pcpuChunkSlot c.chunk)
  change Sound (pcpuChunkRelocate _ c.id chunk (sys.pcpuChunkSlot c.chunk))
  change Lists (pcpuChunkRelocate _ c.id chunk (sys.pcpuChunkSlot c.chunk)) at lists
  rw [eq] at toFree ⊢
  refine @Sound.replaced sys c { c with chunk := chunk, live := live } ok member rfl rfl sound _ rfl rfl toFree rfl ?_ ?_ ?_ ?_ ?_
  · exact eq ▸ lists
  · exact fun free => absurd free notFree
  · exact fun rest is => absurd (is ▸ List.mem_cons_self) notFree
  · exact fun _ => rfl
  · simp only
    split <;> omega

end

/-! ## Areas -/

section

variable {sys : System} (ok : Sound sys)

include ok

/-- The reserved chunk is not on its way to destruction. -/
theorem Sound.reserved_notFree {c : ManagedChunk} (member : c ∈ sys.chunks) (reserved : sys.reservedChunk = some c.id) :
    c.id ∉ sys.toFree := by
  intro free
  have first := ok.reserved c member reserved
  rw [(ok.empty c member free).1] at first
  cases first

theorem Sound.listed_notFree {c : ManagedChunk} {k : Nat} (listed : c.id ∈ sys.pcpuSlot k) : c.id ∉ sys.toFree :=
  fun free => ok.lists.away c.id (.inl free) k listed

theorem Sound.live_notFree {c : ManagedChunk} (member : c ∈ sys.chunks) {area : Area} (live : area ∈ c.live) :
    c.id ∉ sys.toFree := by
  intro free
  rw [(ok.empty c member free).2] at live
  cases live

/-- What a chunk that serves a request becomes. -/
theorem Sound.tryChunk_some {size a id : Nat} {request : Nat × Nat} {isAtomic : Bool}
    (accepted : pcpuAllocRequest size a = some request) {result : Nat × Nat × System}
    (found : sys.tryChunk request.1 request.2 a isAtomic id = some result) :
    ∃ c ∈ sys.chunks, c.id = id ∧ ∃ bitOff, Available c.chunk bitOff (request.1 / minAllocSize) ∧
      request.2 / minAllocSize ∣ bitOff ∧
      result = (id, bitOff * minAllocSize, sys.changed c (takeArea c.chunk bitOff (request.1 / minAllocSize))
        (⟨bitOff * minAllocSize, request.1, a⟩ :: c.live)) := by
  simp only [tryChunk, Option.bind_eq_bind, Option.bind_eq_some_iff, Option.pure_def, Option.some.injEq] at found
  obtain ⟨c, is, start, fit, ⟨off, chunk⟩, taken, rfl⟩ := found
  obtain ⟨member, named⟩ := find_some is
  have fits := accepted_of_request accepted
  obtain ⟨alignPos, unit, -⟩ := fits.bitAlign
  have blocks := (ok.chunks c member).run.chunk.blocks
  obtain ⟨bits, ⟨q, lower, near, multiple, room, clear, -⟩, -⟩ := findBlockFit_found blocks unit alignPos fits.bits_pos fit
  obtain ⟨bitOff, -, area, -, -, aligned, available⟩ :=
    allocArea_fit alignPos fits.bits_pos lower near multiple room clear
  rw [area] at taken
  cases taken
  exact ⟨c, member, named, bitOff, available, aligned, rfl⟩

/-- A search that succeeds has tried the chunk it names, which is on a slot or the reserved one. -/
theorem Sound.search_some {size a alignment id off : Nat} {reserved isAtomic : Bool} {sys' : System}
    (found : sys.search size a alignment reserved isAtomic = some (id, off, sys')) :
    ∃ tried, sys.tryChunk size a alignment isAtomic tried = some (id, off, sys') ∧ tried ∉ sys.toFree := by
  have slots (found : sys.searchSlots size a alignment isAtomic = some (id, off, sys')) :
      ∃ tried, sys.tryChunk size a alignment isAtomic tried = some (id, off, sys') ∧ tried ∉ sys.toFree := by
    obtain ⟨slot, -, found⟩ := List.exists_of_findSome?_eq_some found
    obtain ⟨tried, listed, found⟩ := List.exists_of_findSome?_eq_some found
    exact ⟨tried, found, fun free => ok.lists.away tried (.inl free) slot listed⟩
  unfold search at found
  split at found
  · rename_i tried is
    refine ⟨tried, found, fun free => ?_⟩
    obtain ⟨c, member, named⟩ := ok.lists.freed tried free
    exact ok.reserved_notFree member (by rw [named, is]) (by rw [named]; exact free)
  · exact slots found

theorem Sound.alloc {size a id off : Nat} {request : Nat × Nat} {reserved isAtomic : Bool} {sys' : System}
    (accepted : pcpuAllocRequest size a = some request)
    (found : sys.search request.1 request.2 a reserved isAtomic = some (id, off, sys')) : Sound sys' := by
  obtain ⟨tried, found, notFree⟩ := ok.search_some found
  obtain ⟨c, member, named, bitOff, available, aligned, result⟩ := ok.tryChunk_some accepted found
  cases result
  exact ok.changed member (by rw [named]; exact notFree)
    ((ok.chunks c member).take (accepted_of_request accepted) available aligned)

theorem Sound.free {c : ManagedChunk} {area : Area} (member : c ∈ sys.chunks) (live : area ∈ c.live) :
    Sound (sys.freeArea c area) :=
  ok.changed member (ok.live_notFree member live) ((ok.chunks c member).give live)

/-! ## Pages -/

/-- Pages were populated in a chunk that is not on its way to destruction; they count as empty
    unless the chunk has areas. -/
theorem Sound.populated {c : ManagedChunk} {rs re : Nat} {forAlloc : Bool} (member : c ∈ sys.chunks)
    (notFree : c.id ∉ sys.toFree) (pages : Unpopulated c.chunk rs re) (used : forAlloc = true → c.live ≠ [])
    (serves : forAlloc = false → sys.reservedChunk ≠ some c.id) : Sound (sys.pcpuChunkPopulated c rs re forAlloc) := by
  obtain ⟨proper, inside, clear⟩ := pages
  have sound := ok.chunks c member
  have weight : bitmapWeight (bitmapSet c.chunk.populated rs (re - rs)) c.chunk.nrPages =
      bitmapWeight c.chunk.populated c.chunk.nrPages + (re - rs) :=
    bitmapWeight_set (fun i lo hi => clear i lo (by omega)) (by omega)
  refine @Sound.kept sys c { c with
      chunk := { c.chunk with
        populated := bitmapSet c.chunk.populated rs (re - rs)
        nrEmptyPopPages := c.chunk.nrEmptyPopPages + if forAlloc then 0 else re - rs }
      nrPopulated := c.nrPopulated + (re - rs) } ok member rfl rfl ?_ _ _ sys.reclaimAt rfl ?_ ?_ (fun _ => rfl) ?_
  · refine ⟨⟨⟨sound.run.chunk.blocks, sound.run.chunk.first⟩, { sound.run.areas with }⟩, ?_, sound.later, ?_, sound.part⟩
    · simp only [weight, sound.counted]
    · intro later none
      have whole := sound.whole later none
      refine ⟨whole.bits, whole.start, ?_⟩
      cases forAlloc with
      | true => exact absurd none (used rfl)
      | false =>
          simp only [weight, whole.pages]
          rfl
  · exact fun free => absurd free notFree
  · exact fun rest is => absurd (is ▸ List.mem_cons_self) notFree
  · cases forAlloc with
    | true => simp
    | false =>
        rw [if_pos (serves rfl)]
        simp

omit ok in
/-- The next region of populated pages, or none up to the end. -/
theorem nextPop_spec {m : Bitmap} {start stop rs re : Nat} (region : pcpuNextPop m start stop = (rs, re)) :
    (∀ i, start ≤ i → i < rs → m i = false) ∧
      (rs < re → re ≤ stop ∧ start ≤ rs ∧ (∀ i, rs ≤ i → i < re → m i = true) ∧ (re < stop → m re = false)) ∧
      (¬ rs < re → stop ≤ rs) := by
  obtain ⟨rfl, rfl⟩ := Prod.mk.inj region
  obtain ⟨le, low, hit, miss⟩ := findNext_spec m true stop start
  obtain ⟨le', low', hit', miss'⟩ := findNext_spec m false stop (findNextBit m stop start + 1)
  change findNextBit m stop start ≤ stop at le
  change start ≤ stop → start ≤ findNextBit m stop start at low
  change findNextBit m stop start < stop → m (findNextBit m stop start) = true at hit
  refine ⟨fun i lo hi => by simpa using miss i lo hi, fun proper => ?_, fun none => ?_⟩
  · have some : findNextBit m stop start < stop := lt_of_lt_of_le proper le'
    have inside : start ≤ stop := by
      by_contra past
      have none : findNextBit m stop start = stop := findNext_past (by omega)
      omega
    refine ⟨le', low inside, fun i lo hi => ?_, hit'⟩
    by_cases first : i = findNextBit m stop start
    · rw [first]
      exact hit some
    · simpa using miss' i (by omega) hi
  · by_contra some
    have next := low' (by omega)
    change findNextBit m stop start + 1 ≤ findNextZeroBit m stop (findNextBit m stop start + 1) at next
    omega

theorem Sound.first_free {c : ManagedChunk} {rest : List Nat} (member : c ∈ sys.chunks) (first : sys.toFree = c.id :: rest) :
    c.immutable = false ∧ c.live = [] := ok.empty c member (first ▸ List.mem_cons_self)

/-- A chunk that goes away does not serve reserved requests. -/
theorem Sound.first_serves {c : ManagedChunk} {rest : List Nat} (member : c ∈ sys.chunks) (first : sys.toFree = c.id :: rest) :
    sys.reservedChunk ≠ some c.id :=
  fun reserved => ok.reserved_notFree member reserved (first ▸ List.mem_cons_self)

theorem Sound.depopulated {c : ManagedChunk} {rest : List Nat} {rs re : Nat} (member : c ∈ sys.chunks)
    (first : sys.toFree = c.id :: rest)
    (region : pcpuNextPop c.chunk.populated sys.reclaimAt c.chunk.nrPages = (rs, re)) (proper : rs < re) :
    Sound { sys.pcpuChunkDepopulated c rs re with reclaimAt := re + 1 } := by
  obtain ⟨before, some, -⟩ := nextPop_spec region
  obtain ⟨inside, low, full, stop⟩ := some proper
  obtain ⟨later, none⟩ := ok.first_free member first
  have sound := ok.chunks c member
  have whole := sound.whole later none
  have weight : bitmapWeight (bitmapClear c.chunk.populated rs (re - rs)) c.chunk.nrPages + (re - rs) =
      bitmapWeight c.chunk.populated c.chunk.nrPages :=
    bitmapWeight_clear (fun i lo hi => full i lo (by omega)) (by omega)
  refine @Sound.kept sys c { c with
      chunk := { c.chunk with
        populated := bitmapClear c.chunk.populated rs (re - rs)
        nrEmptyPopPages := c.chunk.nrEmptyPopPages - (re - rs) }
      nrPopulated := c.nrPopulated - (re - rs) } ok member rfl rfl ?_ (sys.nrEmptyPopPages - (re - rs : Nat)) _ (re + 1) rfl (fun _ => none) ?_ ?_ ?_
  · refine ⟨⟨⟨sound.run.chunk.blocks, sound.run.chunk.first⟩, { sound.run.areas with }⟩, ?_, sound.later,
      fun _ _ => ⟨whole.bits, whole.start, ?_⟩, sound.part⟩
    · simp only [sound.counted]
      omega
    · simp only [whole.pages]
      omega
  · intro rest' _ i below inChunk
    by_cases gone : rs ≤ i ∧ i < rs + (re - rs)
    · exact bitmapClear_inside gone
    · refine (bitmapClear_outside gone).trans ?_
      by_cases last : i = re
      · rw [last]
        rw [last] at inChunk
        exact stop inChunk
      · by_cases early : i < sys.reclaimAt
        · exact ok.cursor c member rest first i early inChunk
        · exact before i (by omega) (by omega)
  · intro other
    exact absurd first (other rest)
  · rw [if_pos (ok.first_serves member first)]
    have enough : re - rs ≤ c.chunk.nrEmptyPopPages := by
      rw [whole.pages]
      omega
    simp only
    omega

/-- The chunk that is destroyed has no populated pages left. -/
theorem Sound.drained {c : ManagedChunk} {rest : List Nat} {rs re : Nat} (member : c ∈ sys.chunks)
    (first : sys.toFree = c.id :: rest)
    (region : pcpuNextPop c.chunk.populated sys.reclaimAt c.chunk.nrPages = (rs, re)) (none : ¬ rs < re) :
    c.chunk.nrEmptyPopPages = 0 ∧ c.nrPopulated = 0 := by
  obtain ⟨before, -, last⟩ := nextPop_spec region
  obtain ⟨later, empty⟩ := ok.first_free member first
  have sound := ok.chunks c member
  have stop := last none
  have clear : Clear c.chunk.populated 0 c.chunk.nrPages := by
    intro i _ below
    by_cases early : i < sys.reclaimAt
    · exact ok.cursor c member rest first i early below
    · exact before i (by omega) (by omega)
  have zero := bitmapWeight_empty clear
  exact ⟨(sound.whole later empty).pages.trans zero, sound.counted.trans zero⟩

theorem Sound.elsewhere {c : ManagedChunk} (beyond : Bitmap) (member : c ∈ sys.chunks) : Sound (sys.elsewhere c beyond) := by
  have sound := ok.chunks c member
  have run := sound.run.elsewhere beyond
  refine @Sound.kept sys c { c with chunk := { c.chunk with
    allocMap := fun i => if i < c.chunk.mapBits then c.chunk.allocMap i else beyond i } } ok member rfl rfl ?_ _ _
    sys.reclaimAt rfl ?_ ?_ (fun _ => rfl) ?_
  · exact ⟨run, sound.counted, sound.later,
      fun later none => ⟨(sound.whole later none).bits, (sound.whole later none).start, (sound.whole later none).pages⟩,
      sound.part⟩
  · exact fun free => (ok.empty c member free).2
  · exact ok.cursor c member
  · simp

end

end Miracle.Percpu.System
