import Miracle.Percpu.Accounting

/-! # The search through the slots

A chunk on the last slot serves every request that may populate pages.  So a caller that holds
the lock and finds such a chunk is done: the loop of `pcpu_alloc` goes round again only when
another context took the chunk between the look at the list and the lock.
-/

namespace Miracle.Percpu

open BitScan

/-! ## A fit in a chunk without areas -/

section

variable {chunk : PcpuChunk} (ok : ChunkOk chunk) (clear : Clear chunk.allocMap 0 chunk.mapBits)

include ok clear

/-- Blocks are carried on until the request fits. -/
theorem nextFitLoop_carry {allocBits a left i blockOff bits : Nat} (carried : bits ≠ 0) (ends : i + left = chunk.nrBlocks)
    (room : allocBits ≤ bits + left * blockBits) (some : 0 < left) :
    ∃ found, nextFitLoop chunk allocBits a left i blockOff 0 bits = (0, found) := by
  induction left generalizing i bits with
  | zero => cases some
  | succ left ih =>
      obtain ⟨-, -, full, -⟩ := block_empty ok clear (by omega : i < chunk.nrBlocks)
      rw [nextFitLoop]
      simp only [full]
      by_cases fits : allocBits ≤ bits + blockBits
      · exact ⟨_, if_pos ⟨carried, fits⟩⟩
      · rw [if_neg (fun both => fits both.2), if_pos ⟨carried, trivial⟩]
        rw [Nat.succ_mul] at room
        have more : 0 < left := by
          by_contra none
          rw [Nat.eq_zero_of_not_pos none] at room
          omega
        exact ih (by omega) (by omega) (by omega) more

/-- The first place that is looked at is the start of the chunk. -/
theorem nextFitRegion_start {allocBits a : Nat} (pos : 0 < allocBits) (fits : allocBits ≤ chunk.mapBits) :
    ∃ found, pcpuNextFitRegion chunk allocBits a 0 = (0, found) := by
  have some : 0 < chunk.nrPages := by
    by_contra none
    rw [PcpuChunk.mapBits, Nat.eq_zero_of_not_pos none] at fits
    omega
  obtain ⟨left, more⟩ : ∃ left, chunk.nrPages = left + 1 := ⟨chunk.nrPages - 1, by omega⟩
  obtain ⟨hint, start, -, right⟩ := block_empty ok clear some
  have low : (chunk.mdBlocks 0).firstFree = 0 := by
    by_contra away
    have set := (ok.blocks 0 some).first 0 (by omega) (by decide)
    have inside : 0 * blockBits + blockBits ≤ chunk.mapBits := block_end some
    rw [blockView, clear _ (Nat.zero_le _) (by omega)] at set
    cases set
  have pad : align 0 a - 0 = 0 := by
    simp only [align, alignMask]
    rw [Nat.zero_add, Nat.div_eq_of_lt (Nat.lt_succ_self _), Nat.zero_mul]
  have first : pcpuNextFitRegion chunk allocBits a 0 = nextFitLoop chunk allocBits a (chunk.nrBlocks - 0) 0 0 0 0 := rfl
  have blocks : chunk.nrBlocks - 0 = left + 1 := more
  rw [first, blocks, nextFitLoop]
  simp only [ne_eq, not_true_eq_false, false_and, if_false, hint, start, right, low, pad, Nat.zero_add, Nat.sub_self]
  by_cases one : allocBits ≤ blockBits
  · exact ⟨_, if_pos ⟨by decide, le_rfl, one⟩⟩
  · have begin_ : align 0 a = 0 := by omega
    rw [if_neg (fun all => one all.2.2), begin_, if_neg (by omega)]
    simp only [pcpuBlockOffToOff, Nat.zero_mul, Nat.zero_add, Nat.sub_zero]
    rw [PcpuChunk.mapBits, more, Nat.succ_mul] at fits
    refine nextFitLoop_carry ok clear (by decide) (by rw [PcpuChunk.nrBlocks]; omega) (by omega) ?_
    by_contra none
    rw [Nat.eq_zero_of_not_pos none] at fits
    omega

/-- A request that may populate pages gets the start of a chunk without areas. -/
theorem findBlockFit_start {allocBits a : Nat} (whole : Whole chunk) (pos : 0 < allocBits) (fits : allocBits ≤ chunk.mapBits) :
    pcpuFindBlockFit chunk allocBits a false = some 0 := by
  have some : 0 < chunk.nrPages := by
    by_contra none
    rw [PcpuChunk.mapBits, Nat.eq_zero_of_not_pos none] at fits
    omega
  obtain ⟨found, region⟩ := nextFitRegion_start ok clear (a := a) pos fits
  have pad : align 0 a - 0 = 0 := by
    simp only [align, alignMask]
    rw [Nat.zero_add, Nat.div_eq_of_lt (Nat.lt_succ_self _), Nat.zero_mul]
  have bits : 0 < chunk.mapBits := by omega
  have loop : findFitLoop chunk allocBits a false (chunk.nrBlocks + 1) chunk.firstBit = 0 := by
    rw [firstBit_zero ok clear some, findFitLoop]
    simp only [region, if_pos bits, Bool.false_eq_true, if_false]
  unfold pcpuFindBlockFit
  simp only [whole.start, whole.bits, pad, Nat.zero_add]
  rw [if_neg (by omega), loop, if_neg (by omega)]

omit ok in
/-- And it takes it. -/
theorem allocArea_start {allocBits a : Nat} (alignPos : 0 < a) (pos : 0 < allocBits) (fits : allocBits ≤ chunk.mapBits) :
    ∃ result, pcpuAllocArea chunk allocBits a 0 = some result := by
  have area : Clear chunk.allocMap 0 (0 + allocBits) := clear.mono le_rfl (by omega)
  obtain ⟨bitOff, -, taken, -⟩ := allocArea_fit alignPos pos (le_refl 0) (Nat.zero_le _) (Nat.dvd_zero a) (by omega) area
  exact ⟨_, taken⟩

end

namespace System

/-! ## The chunks of the last slot -/

section

variable {sys : System} (ok : Sound sys)

include ok

theorem find_of_mem {c : ManagedChunk} (member : c ∈ sys.chunks) : sys.find c.id = some c := by
  unfold find
  cases found : sys.chunks.find? fun d => d.id = c.id with
  | none =>
      have none := List.find?_eq_none.mp found c member
      simp at none
  | some d =>
      have same : d.id = c.id := by simpa using List.find?_some found
      rw [ok.lists.unique (List.mem_of_find?_eq_some found) member same]

/-- A chunk of the last slot serves every admitted request. -/
theorem Sound.last_serves {c : ManagedChunk} (member : c ∈ sys.chunks) (listed : c.id ∈ sys.pcpuSlot (sys.nrSlots - 1))
    {size a : Nat} {request : Nat × Nat} (accepted : pcpuAllocRequest size a = some request) :
    ∃ result, sys.tryChunk request.1 request.2 a false c.id = some result := by
  obtain ⟨later, none⟩ := ok.last_empty member listed
  have sound := ok.chunks c member
  obtain ⟨pages, start, stop⟩ := sound.later later
  have clear := (sound.run.areas.free_iff start stop).mp none
  have fits := accepted_of_request accepted
  obtain ⟨alignPos, -, -⟩ := fits.bitAlign
  have room : request.1 / minAllocSize ≤ c.chunk.mapBits := by
    have bounded := fits.bounded
    have unit := ok.unit
    rw [PcpuChunk.mapBits, pages]
    simp only [unitSize, minUnitSize, pageSize, minAllocSize, blockBits] at *
    omega
  have fit := findBlockFit_start sound.run.chunk clear (a := request.2 / minAllocSize) (sound.whole later none) fits.bits_pos room
  obtain ⟨result, taken⟩ := allocArea_start (a := request.2 / minAllocSize) clear alignPos fits.bits_pos room
  simp only [tryChunk, find_of_mem ok member, fit, taken, Option.bind_eq_bind, Option.bind_some, Option.pure_def]
  exact ⟨_, rfl⟩

omit ok in
theorem slot_le_last {size : Nat} (le : size ≤ sys.unitSize) : sys.pcpuSizeToSlot size ≤ sys.nrSlots - 1 := by
  unfold pcpuSizeToSlot
  split
  · exact le_rfl
  · exact (sizeToSlot_lt sys le).le

omit ok in
theorem mem_searched {size slot : Nat} (low : sys.pcpuSizeToSlot size ≤ slot) (high : slot ≤ sys.nrSlots - 1) :
    slot ∈ List.range' (sys.pcpuSizeToSlot size) (sys.nrSlots - sys.pcpuSizeToSlot size) := by
  have last := last_pos sys
  rw [List.mem_range'_1]
  omega

/-- With a chunk on the last slot the search does not fail. -/
theorem Sound.search_serves {size a : Nat} {request : Nat × Nat} (accepted : pcpuAllocRequest size a = some request)
    (nonempty : sys.pcpuSlot (sys.nrSlots - 1) ≠ []) : ∃ result, sys.searchSlots request.1 request.2 a false = some result := by
  obtain ⟨id, listed⟩ := List.exists_mem_of_ne_nil _ nonempty
  obtain ⟨c, member, rfl⟩ := ok.lists.known _ id listed
  obtain ⟨result, served⟩ := ok.last_serves member listed accepted
  have bounded := (accepted_of_request accepted).bounded
  rw [← Option.isSome_iff_exists]
  refine List.findSome?_isSome_iff.mpr ⟨sys.nrSlots - 1,
    mem_searched (slot_le_last (bounded.trans ok.unit)) le_rfl, ?_⟩
  exact List.findSome?_isSome_iff.mpr ⟨c.id, listed, by rw [served]; rfl⟩

/-- The slot of a chunk is visited for every size that is free in it. -/
theorem Sound.slot_visited {c : ManagedChunk} (member : c ∈ sys.chunks) {size : Nat} (enough : (size : Int) ≤ c.chunk.freeBytes)
    (units : minAllocSize ≤ size) (hinted : c.chunk.contigBits ≠ 0) :
    sys.pcpuChunkSlot c.chunk ∈ List.range' (sys.pcpuSizeToSlot size) (sys.nrSlots - sys.pcpuSizeToSlot size) := by
  have le := (ok.chunks c member).freeBytes_le
  have inside : c.chunk.freeBytes.toNat ≤ sys.unitSize := by
    rw [unitSize]
    omega
  have more : size ≤ c.chunk.freeBytes.toNat := by omega
  have slot : sys.pcpuChunkSlot c.chunk = sys.pcpuSizeToSlot c.chunk.freeBytes.toNat := by
    unfold pcpuChunkSlot
    rw [if_neg]
    rintro (few | none)
    · omega
    · exact hinted none
  rw [slot]
  refine mem_searched ?_ (slot_le_last inside)
  unfold pcpuSizeToSlot
  by_cases all : c.chunk.freeBytes.toNat = sys.unitSize
  · rw [if_pos all]
    split
    · exact le_rfl
    · exact (sizeToSlot_lt sys (more.trans inside)).le
  · rw [if_neg all, if_neg (by omega)]
    exact sizeToSlot_mono more

/-- A new chunk is on the last slot. -/
theorem Sound.created_last {id : Nat} (beyond : Bitmap) (unused : ∀ c ∈ sys.chunks, c.id ≠ id) :
    id ∈ (sys.createChunk id beyond).pcpuSlot ((sys.createChunk id beyond).nrSlots - 1) := by
  have ok' := ok.create beyond unused
  have pages : 0 < sys.unitPages := by
    have unit := ok.unit
    by_contra none
    rw [unitSize, Nat.eq_zero_of_not_pos none, Nat.zero_mul] at unit
    exact absurd unit (by decide)
  let new : ManagedChunk := ⟨id, pcpuAllocChunk sys.unitPages beyond, false, 0, []⟩
  have member : new ∈ (sys.createChunk id beyond).chunks := by
    rw [createChunk_chunks]
    exact List.mem_cons_self
  have later : new.immutable = false ∧ new.live = [] := ⟨rfl, rfl⟩
  obtain ⟨slots, freed, eq⟩ := @relocate_eq { sys with chunks := new :: sys.chunks } id new.chunk (-1)
  have same : sys.createChunk id beyond =
      { { sys with chunks := new :: sys.chunks } with pcpuSlot := slots, toFree := freed } := eq
  have notFree : id ∉ (sys.createChunk id beyond).toFree := by
    have kept := @relocate_toFree { sys with chunks := new :: sys.chunks } id new.chunk (-1) (fun free => by
      obtain ⟨c, hc, named⟩ := ok.lists.freed id free
      exact unused c hc named)
    intro free
    change id ∈ (pcpuChunkRelocate _ _ _ _).toFree at free
    rw [kept] at free
    obtain ⟨c, hc, named⟩ := ok.lists.freed id free
    exact unused c hc named
  have serves : (sys.createChunk id beyond).reservedChunk ≠ some id := by
    rw [same]
    intro reserved
    obtain ⟨c, hc, named⟩ := ok.lists.stays id reserved
    exact unused c hc named
  have slot : (sys.createChunk id beyond).pcpuChunkSlot new.chunk = (sys.createChunk id beyond).nrSlots - 1 := by
    rw [same]
    refine last_of_freeBytes _ pages rfl ?_
    exact (Nat.mul_pos pages (by decide)).ne'
  have count := ok'.lists.onSlot new member notFree serves ((sys.createChunk id beyond).nrSlots - 1)
  rw [if_pos slot.symm] at count
  exact List.count_pos_iff.mp (by rw [count]; exact Nat.one_pos)

end

/-! ## Going round again -/

/-- What other contexts do while a caller holds `pcpu_alloc_mutex` but not `pcpu_lock`. -/
inductive Unlocked : System → System → Prop where
  | alloc {sys sys' : System} {size a id off : Nat} {request : Nat × Nat} {reserved : Bool}
      (accepted : pcpuAllocRequest size a = some request)
      (found : sys.search request.1 request.2 a reserved true = some (id, off, sys')) : Unlocked sys sys'
  | free {sys : System} {c : ManagedChunk} {area : Area} (member : c ∈ sys.chunks) (live : area ∈ c.live) :
      Unlocked sys (sys.freeArea c area)
  | elsewhere {sys : System} {c : ManagedChunk} (beyond : Bitmap) (member : c ∈ sys.chunks) :
      Unlocked sys (sys.elsewhere c beyond)

/-- Why the caller is at the label `restart`. -/
inductive Cause where
  | entered
  | created
  | foundEmpty
  deriving DecidableEq, Repr

/-- A call that is not atomic has come to `restart` in the last state, with the lock: how often it
    went round, and how often the chunk it had seen on the last slot was taken before it had the
    lock again. -/
inductive AtRestart (request : Nat × Nat) (a : Nat) (start : System) : Cause → Nat → Nat → System → Prop where
  | entered : AtRestart request a start .entered 0 0 start
  /-- The last slot is empty, and a chunk is created and put there. -/
  | created {cause : Cause} {restarts lost id : Nat} {sys unlocked relocked : System} (beyond : Bitmap)
      (pass : AtRestart request a start cause restarts lost sys)
      (failed : sys.searchSlots request.1 request.2 a false = none)
      (others : Relation.ReflTransGen Unlocked sys unlocked)
      (empty : unlocked.pcpuSlot (unlocked.nrSlots - 1) = [])
      (others' : Relation.ReflTransGen Unlocked unlocked relocked) (unused : ∀ c ∈ relocked.chunks, c.id ≠ id) :
      AtRestart request a start .created (restarts + 1) lost (relocked.createChunk id beyond)
  /-- The last slot is not empty when the caller looks. -/
  | foundEmpty {cause : Cause} {restarts lost : Nat} {sys unlocked relocked : System}
      (pass : AtRestart request a start cause restarts lost sys)
      (failed : sys.searchSlots request.1 request.2 a false = none)
      (others : Relation.ReflTransGen Unlocked sys unlocked)
      (nonempty : unlocked.pcpuSlot (unlocked.nrSlots - 1) ≠ [])
      (others' : Relation.ReflTransGen Unlocked unlocked relocked) :
      AtRestart request a start .foundEmpty (restarts + 1)
        (if relocked.pcpuSlot (relocked.nrSlots - 1) = [] then lost + 1 else lost) relocked

theorem Unlocked.step {sys sys' : System} (taken : Unlocked sys sys') : Step sys sys' := by
  cases taken with
  | alloc accepted found => exact .alloc accepted found
  | free member live => exact .free member live
  | elsewhere beyond member => exact .elsewhere beyond member

theorem Sound.unlocked {sys sys' : System} (ok : Sound sys) (others : Relation.ReflTransGen Unlocked sys sys') : Sound sys' := by
  induction others with
  | refl => exact ok
  | tail _ taken before => exact before.step taken.step

section

variable {start sys : System} {size a : Nat} {request : Nat × Nat} (accepted : pcpuAllocRequest size a = some request)
  {cause : Cause} {restarts lost : Nat}

theorem AtRestart.sound (ok : Sound start) (pass : AtRestart request a start cause restarts lost sys) : Sound sys := by
  induction pass with
  | entered => exact ok
  | created beyond _ _ others _ others' unused before =>
      exact ((before.unlocked others).unlocked others').create beyond unused
  | foundEmpty _ _ others _ others' before => exact (before.unlocked others).unlocked others'

include accepted

/-- The passes that go round again are the first and those that lost the chunk. -/
theorem AtRestart.bounded (ok : Sound start) (pass : AtRestart request a start cause restarts lost sys) :
    restarts ≤ lost + 1 ∧ (restarts = lost + 1 → sys.pcpuSlot (sys.nrSlots - 1) ≠ []) := by
  have again {sys : System} {cause : Cause} {restarts lost : Nat} (pass : AtRestart request a start cause restarts lost sys)
      (failed : sys.searchSlots request.1 request.2 a false = none) : sys.pcpuSlot (sys.nrSlots - 1) = [] := by
    by_contra nonempty
    obtain ⟨result, served⟩ := (pass.sound ok).search_serves accepted nonempty
    rw [failed] at served
    cases served
  induction pass with
  | entered => exact ⟨Nat.zero_le _, fun none => absurd none (Nat.zero_ne_one)⟩
  | @created _ restarts lost _ _ _ _ beyond pass failed others _ others' unused before =>
      obtain ⟨le, served⟩ := before
      have short : restarts ≠ lost + 1 := fun full => served full (again pass failed)
      refine ⟨by omega, fun _ none => ?_⟩
      have listed := (((pass.sound ok).unlocked others).unlocked others').created_last beyond unused
      rw [none] at listed
      cases listed
  | @foundEmpty _ restarts lost _ _ _ pass failed _ _ _ before =>
      obtain ⟨le, served⟩ := before
      have short : restarts ≠ lost + 1 := fun full => served full (again pass failed)
      split
      · rename_i gone
        exact ⟨by omega, fun full => absurd full (by omega)⟩
      · rename_i there
        exact ⟨by omega, fun _ => there⟩

end

/-- Chunks that serve requests are where the search looks for them; a chunk of the last slot
    serves every admitted request that is not atomic, a new chunk is one of them, and a call goes
    round once, and once more for each time it lost the chunk it had seen. -/
theorem slots_lead_to_area {sys : System} (run : Reachable sys) :
    (∀ c ∈ sys.chunks, sys.reservedChunk ≠ some c.id → c.id ∉ sys.toFree →
      (∀ k, (sys.pcpuSlot k).count c.id = if k = sys.pcpuChunkSlot c.chunk then 1 else 0) ∧
      ∀ size a request, pcpuAllocRequest size a = some request → (request.1 : Int) ≤ c.chunk.freeBytes →
        c.chunk.contigBits ≠ 0 →
        sys.pcpuChunkSlot c.chunk ∈ List.range' (sys.pcpuSizeToSlot request.1) (sys.nrSlots - sys.pcpuSizeToSlot request.1)) ∧
    (∀ c ∈ sys.chunks, c.id ∈ sys.toFree → c.live = [] ∧ ∀ k, c.id ∉ sys.pcpuSlot k) ∧
    (∀ c ∈ sys.chunks, c.id ∈ sys.pcpuSlot (sys.nrSlots - 1) →
      c.live = [] ∧ Clear c.chunk.allocMap 0 c.chunk.mapBits ∧
      ∀ size a request, pcpuAllocRequest size a = some request →
        ∃ result, sys.tryChunk request.1 request.2 a false c.id = some result) ∧
    ∀ size a request, pcpuAllocRequest size a = some request → ∀ cause restarts lost now,
      AtRestart request a sys cause restarts lost now →
      restarts ≤ lost + 1 ∧ (cause = .created → ∃ result, now.searchSlots request.1 request.2 a false = some result) := by
  have ok := run.sound
  refine ⟨fun c member serves notFree => ⟨ok.lists.onSlot c member notFree serves, ?_⟩,
    fun c member free => ⟨(ok.empty c member free).2, ok.lists.away c.id (.inl free)⟩, fun c member listed => ?_, ?_⟩
  · intro size a request accepted enough hinted
    have fits := accepted_of_request accepted
    exact ok.slot_visited member enough (Nat.le_of_dvd fits.nonempty fits.units) hinted
  · obtain ⟨later, none⟩ := ok.last_empty member listed
    have sound := ok.chunks c member
    obtain ⟨-, start, stop⟩ := sound.later later
    exact ⟨none, (sound.run.areas.free_iff start stop).mp none, fun _ _ _ accepted => ok.last_serves member listed accepted⟩
  · intro size a request accepted cause restarts lost now pass
    refine ⟨(pass.bounded accepted ok).1, ?_⟩
    rintro rfl
    cases pass with
    | created beyond pass _ others _ others' unused =>
        have before := ((pass.sound ok).unlocked others).unlocked others'
        refine (before.create beyond unused).search_serves accepted fun none => ?_
        have listed := before.created_last beyond unused
        rw [none] at listed
        cases listed

/-- The two chunks that were made last are both whole. -/
theorem twoChunks_lead_to_area :
    chunkTwoMade.live = [] ∧ ∃ result, twoChunks.tryChunk (8 * pageSize) 4 4 false chunkTwoMade.id = some result := by
  have found := (slots_lead_to_area twoChunks_reachable).2.2.1 chunkTwoMade mem_twoChunks (by decide +kernel)
  exact ⟨found.1, found.2.2 (8 * pageSize) 4 (8 * pageSize, 4) (by decide)⟩

/-- A unit of eight pages, five of them static. -/
def smallSizes : Sizes where
  unitPages := 8
  staticSize := 5 * pageSize
  reservedSize := 0
  dynSize := 3 * pageSize
  static_pos := by decide
  minUnit := by decide
  room := by decide
  reservedUnits := Nat.dvd_zero minAllocSize
  pages := by decide
  early := by decide

/-- An atomic request of four pages. -/
def taken (sys : System) : System :=
  match sys.search (4 * pageSize) 4 4 false true with
  | some (_, _, sys) => sys
  | none => sys

/-- The last area of the chunk is freed. -/
def given (sys : System) (id : Nat) : System :=
  match sys.find id with
  | some c =>
      match c.live with
      | area :: _ => sys.freeArea c area
      | [] => sys
  | none => sys

theorem taken_unlocked {sys : System} (found : (sys.search (4 * pageSize) 4 4 false true).isSome) : Unlocked sys sys.taken := by
  unfold taken
  cases area : sys.search (4 * pageSize) 4 4 false true with
  | none =>
      rw [area] at found
      cases found
  | some result =>
      exact Unlocked.alloc (a := 4) (by decide : pcpuAllocRequest (4 * pageSize) 4 = some (4 * pageSize, 4)) area

theorem given_unlocked {sys : System} {id : Nat} (found : ((sys.find id).any fun c => !c.live.isEmpty) = true) :
    Unlocked sys (sys.given id) := by
  unfold given
  cases named : sys.find id with
  | none =>
      rw [named] at found
      cases found
  | some c =>
      cases areas : c.live with
      | nil =>
          rw [named] at found
          simp [areas] at found
      | cons area rest =>
          simp only [areas]
          refine .free (List.mem_of_find?_eq_some named) ?_
          rw [areas]
          exact List.mem_cons_self

/-- A chunk with four pages populated. -/
def halfPopulated : System :=
  ((setupFirstChunk smallSizes 0x1000000 fun _ => false).createChunk 2 fun _ => false).pcpuChunkPopulated
    ⟨2, pcpuAllocChunk 8 fun _ => false, false, 0, []⟩ 0 4 false

theorem halfPopulated_reachable : Reachable halfPopulated := by
  refine .step (.step (.setup smallSizes (fun _ => false) (by decide : pageSize ∣ 0x1000000))
    (@Step.create _ 2 (fun _ => false) ?_)) (@Step.populate _ _ 14 _ _ ?_ ?_ ⟨by decide, by decide, fun _ _ _ => rfl⟩)
  · decide +kernel
  · rw [createChunk_chunks]
    exact List.mem_cons_self
  · decide +kernel

/-- A chunk that is about to be given back is on no slot, an empty chunk may refuse an atomic
    request, and a call that loses the chunk it had seen goes round twice. -/
theorem slots_lead_astray :
    (Reachable populatedTwo.spareFirst ∧ chunkTwo ∈ populatedTwo.spareFirst.chunks ∧
      populatedTwo.spareFirst.reservedChunk ≠ some chunkTwo.id ∧
      chunkTwo.id ∉ populatedTwo.spareFirst.pcpuSlot (populatedTwo.spareFirst.pcpuChunkSlot chunkTwo.chunk)) ∧
    (Reachable twoChunks ∧ chunkTwoMade ∈ twoChunks.chunks ∧ chunkTwoMade.id ∈ twoChunks.pcpuSlot (twoChunks.nrSlots - 1) ∧
      pcpuAllocRequest 4 4 = some (4, 4) ∧ (twoChunks.tryChunk 4 4 4 true chunkTwoMade.id).isNone) ∧
    Reachable halfPopulated.taken ∧ pcpuAllocRequest (8 * pageSize) 4 = some (8 * pageSize, 4) ∧
      AtRestart (8 * pageSize, 4) 4 halfPopulated.taken .created 2 1
        (((halfPopulated.taken.given 2).taken).createChunk 3 fun _ => false) := by
  refine ⟨⟨.step populatedTwo_reachable (.spareFirst ?_), ?_, ?_, ?_⟩,
    ⟨twoChunks_reachable, mem_twoChunks, ?_, by decide, ?_⟩, ?_, by decide, ?_⟩
  · decide +kernel
  · rw [spareFirst_chunks]
    exact mem_populatedTwo
  · decide +kernel
  · decide +kernel
  · decide +kernel
  · decide +kernel
  · exact .step halfPopulated_reachable (taken_unlocked (by decide +kernel)).step
  · have freed : Unlocked halfPopulated.taken (halfPopulated.taken.given 2) := given_unlocked (by decide +kernel)
    have lost : Unlocked (halfPopulated.taken.given 2) (halfPopulated.taken.given 2).taken := taken_unlocked (by decide +kernel)
    have gone : ((halfPopulated.taken.given 2).taken).pcpuSlot (((halfPopulated.taken.given 2).taken).nrSlots - 1) = [] := by
      decide +kernel
    have first : AtRestart (8 * pageSize, 4) 4 halfPopulated.taken .foundEmpty 1 1 (halfPopulated.taken.given 2).taken := by
      have pass := AtRestart.foundEmpty (@AtRestart.entered (8 * pageSize, 4) 4 halfPopulated.taken)
        (Option.isNone_iff_eq_none.mp (by decide +kernel)) (.single freed) (by decide +kernel) (.single lost)
      rwa [if_pos gone] at pass
    exact .created _ first (Option.isNone_iff_eq_none.mp (by decide +kernel)) .refl gone .refl (by decide +kernel)

end System

end Miracle.Percpu
