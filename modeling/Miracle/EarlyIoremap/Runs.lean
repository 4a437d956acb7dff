import Miracle.EarlyIoremap.Basic

/-! # Mappings that are live do not meet

The number of pages of a request is narrowed to 32 bits before it is compared with the size of
a slot.  As long as no request has so many pages that the narrowed number passes, every mapping
that is handed out has all of its pages in a slot of its own until it is given back.
-/

namespace Miracle.EarlyIoremap

variable {L : Layout}

/-- The pages that a request touches. -/
def pages (physAddr size : Nat) : Nat := (physAddr % pageSize + size + (pageSize - 1)) / pageSize

/-! ## Addresses and indices -/

theorem slotIdx_le (slot : Slot) : slotIdx slot ≤ fixBtmapBegin := Nat.sub_le _ _

/-- A slot's pages end above the fixmap's permanent entries. -/
theorem slotIdx_ge (slot : Slot) : fixBtmapEnd + nrFixBtmaps ≤ slotIdx slot + 1 := by
  have below := slot.isLt
  unfold slotIdx fixBtmapBegin fixBtmapEnd nrFixBtmaps fixBtmapsSlots at *
  omega

/-- The pages of different slots are different. -/
theorem slot_eq {a b : Slot} {i j : Nat} (first : i < nrFixBtmaps) (second : j < nrFixBtmaps)
    (same : slotIdx a - i = slotIdx b - j) : a = b := by
  have belowA := a.isLt
  have belowB := b.isLt
  unfold slotIdx fixBtmapBegin fixBtmapEnd nrFixBtmaps fixBtmapsSlots at *
  apply Fin.ext
  omega

theorem slotVirt_eq (slot : Slot) : slotVirt L slot = (L.topPage - slotIdx slot) * pageSize := by
  unfold slotVirt fixToVirt Layout.fixaddrTop
  rw [Nat.sub_mul]

theorem virtToFix_eq (virt : Nat) : virtToFix L virt = L.topPage - virt / pageSize := by
  unfold virtToFix Layout.fixaddrTop
  rw [← Nat.sub_mul]
  exact Nat.mul_div_cancel _ (by decide)

/-- An address in a slot is neither zero nor beyond the words. -/
theorem slotVirt_bounds (slot : Slot) :
    pageSize ≤ slotVirt L slot ∧ slotVirt L slot + pageSize ≤ 2 ^ 64 ∧ slotVirt L slot % pageSize = 0 ∧
      fixToVirt L fixBtmapBegin ≤ slotVirt L slot ∧ 0 < fixToVirt L fixBtmapBegin := by
  have upper := slotIdx_le slot
  have lower := slotIdx_ge slot
  have room := L.room
  have word := L.word
  rw [slotVirt_eq]
  unfold fixToVirt Layout.fixaddrTop
  unfold fixBtmapBegin fixBtmapEnd nrFixBtmaps fixBtmapsSlots pageSize at *
  omega

/-- The index of a byte of a mapping in a slot. -/
theorem virtToFix_slot (slot : Slot) (offset : Nat) :
    virtToFix L (slotVirt L slot + offset) = slotIdx slot - offset / pageSize := by
  have upper := slotIdx_le slot
  have room := L.room
  rw [virtToFix_eq, slotVirt_eq, Nat.add_comm, Nat.add_mul_div_right _ _ (show 0 < pageSize by decide)]
  omega

/-! ## The loops -/

theorem setPages_apply {fixmap : Nat → Option Nat} {idx physAddr nrpages : Nat} (room : nrpages ≤ idx)
    (word : physAddr + nrpages * pageSize ≤ 2 ^ 64) (j : Nat) :
    setPages fixmap idx physAddr nrpages j =
      if idx - nrpages < j ∧ j ≤ idx then some (physAddr + (idx - j) * pageSize) else fixmap j := by
  induction nrpages generalizing fixmap idx physAddr with
  | zero => rw [setPages, if_neg (by omega)]
  | succ nrpages ih =>
      rw [Nat.add_one_mul] at word
      rw [setPages]
      rcases Nat.eq_zero_or_pos nrpages with rfl | more
      · rw [setPages]
        rcases eq_or_ne j idx with rfl | other
        · rw [Function.update_self, if_pos (by omega), Nat.sub_self, Nat.zero_mul]
          rfl
        · rw [Function.update_of_ne other, if_neg (by omega)]
      · have next : u64 (physAddr + pageSize) = physAddr + pageSize := by
          apply u64_of_lt
          unfold pageSize at *
          omega
        rw [next, ih (by omega) (by omega)]
        rcases eq_or_ne j idx with rfl | other
        · rw [if_neg (by omega), if_pos (by omega), Function.update_self, Nat.sub_self, Nat.zero_mul]
          rfl
        · rw [Function.update_of_ne other]
          by_cases inside : idx - 1 - nrpages < j ∧ j ≤ idx - 1
          · rw [if_pos inside, if_pos (by omega), show idx - j = idx - 1 - j + 1 by omega, Nat.add_one_mul]
            refine congrArg some ?_
            omega
          · rw [if_neg inside, if_neg (by omega)]

theorem clearPages_apply {fixmap : Nat → Option Nat} {idx nrpages : Nat} (room : nrpages ≤ idx) (j : Nat) :
    clearPages fixmap idx nrpages j = if idx - nrpages < j ∧ j ≤ idx then none else fixmap j := by
  induction nrpages generalizing fixmap idx with
  | zero => rw [clearPages, if_neg (by omega)]
  | succ nrpages ih =>
      rw [clearPages, ih (by omega)]
      rcases eq_or_ne j idx with rfl | other
      · rw [Function.update_self, ite_self, if_pos (by omega)]
      · rw [Function.update_of_ne other]
        by_cases inside : idx - 1 - nrpages < j ∧ j ≤ idx - 1
        · rw [if_pos inside, if_pos (by omega)]
        · rw [if_neg inside, if_neg (by omega)]

/-! ## The two counts of pages -/

/-- The check for wraparound lets a request through that ends within the words. -/
theorem wraps_iff {physAddr size : Nat} (word : physAddr < 2 ^ 64) (sizeWord : size < 2 ^ 64) :
    (size = 0 ∨ u64Sub (u64 (physAddr + size)) 1 < physAddr) ↔ ¬(0 < size ∧ physAddr + size ≤ 2 ^ 64) := by
  unfold u64Sub u64
  omega

/-- What `__early_ioremap` counts. -/
theorem mapped_count {physAddr size : Nat} (word : physAddr < 2 ^ 64) (pos : 0 < size) (room : physAddr + size ≤ 2 ^ 64) :
    u32 (u64Sub (pageAlign (u64 (u64Sub (u64 (physAddr + size)) 1 + 1))) (physAddr / pageSize * pageSize) / pageSize) =
      u32 (pages physAddr size) := by
  unfold u32 pageAlign pages u64Sub u64 pageSize
  omega

/-- What `early_iounmap` counts. -/
theorem unmapped_count (physAddr size : Nat) :
    u32 (pageAlign (u64 (physAddr % pageSize + size)) / pageSize) = u32 (pages physAddr size) := by
  unfold u32 pageAlign pages u64 pageSize
  omega

theorem u32_small {n : Nat} (small : n ≤ nrFixBtmaps) : u32 n = n :=
  Nat.mod_eq_of_lt (lt_of_le_of_lt small (by decide))

/-! ## A slot in use -/

/-- The mapping has the slot. -/
structure Mapped (L : Layout) (s : State) (m : Mapping) (slot : Slot) : Prop where
  pos : 0 < m.size
  word : m.physAddr + m.size ≤ 2 ^ 64
  fits : pages m.physAddr m.size ≤ nrFixBtmaps
  addr : m.addr = slotVirt L slot + m.physAddr % pageSize
  prevMap : s.prevMap slot = m.addr
  prevSize : s.prevSize slot = m.size
  entries : ∀ k, k < pages m.physAddr m.size →
    s.fixmap (slotIdx slot - k) = some (m.physAddr / pageSize * pageSize + k * pageSize)

/-- The index is that of a page of the mapping. -/
def Mapping.Covers (L : Layout) (m : Mapping) (idx : Nat) : Prop := ∃ b, b < m.size ∧ virtToFix L (m.addr + b) = idx

/-- Every byte of the mapping is in the slot's pages. -/
def Mapping.On (L : Layout) (m : Mapping) (slot : Slot) : Prop :=
  ∀ idx, m.Covers L idx → slotIdx slot - nrFixBtmaps < idx ∧ idx ≤ slotIdx slot

/-- Every page of the mapping is mapped at its place. -/
def Mapping.Maps (L : Layout) (fixmap : Nat → Option Nat) (m : Mapping) : Prop :=
  ∀ b, b < m.size → fixmap (virtToFix L (m.addr + b)) = some ((m.physAddr + b) / pageSize * pageSize)

section InSlot

variable {m : Mapping} {slot : Slot}

/-- The pages of a mapping at a slot's address. -/
theorem covers_iff (pos : 0 < m.size) (addr : m.addr = slotVirt L slot + m.physAddr % pageSize) {idx : Nat} :
    m.Covers L idx ↔ ∃ k, k < pages m.physAddr m.size ∧ idx = slotIdx slot - k := by
  unfold Mapping.Covers pages
  constructor
  · rintro ⟨b, below, rfl⟩
    refine ⟨(m.physAddr % pageSize + b) / pageSize, ?_, ?_⟩
    · unfold pageSize
      omega
    · rw [addr, Nat.add_assoc, virtToFix_slot]
  · rintro ⟨k, below, rfl⟩
    -- the first byte of the mapping on its page k
    refine ⟨k * pageSize - m.physAddr % pageSize, ?_, ?_⟩
    · unfold pageSize at *
      omega
    · rw [addr, Nat.add_assoc, virtToFix_slot]
      congr 1
      unfold pageSize at *
      omega

theorem covers_range (pos : 0 < m.size) (addr : m.addr = slotVirt L slot + m.physAddr % pageSize)
    (fits : pages m.physAddr m.size ≤ nrFixBtmaps) {idx : Nat} :
    m.Covers L idx ↔ slotIdx slot - pages m.physAddr m.size < idx ∧ idx ≤ slotIdx slot := by
  have lower := slotIdx_ge slot
  rw [covers_iff pos addr]
  unfold fixBtmapEnd at lower
  constructor
  · rintro ⟨k, below, rfl⟩
    omega
  · rintro ⟨low, high⟩
    exact ⟨slotIdx slot - idx, by omega, by omega⟩

theorem on_slot (pos : 0 < m.size) (addr : m.addr = slotVirt L slot + m.physAddr % pageSize)
    (fits : pages m.physAddr m.size ≤ nrFixBtmaps) : m.On L slot := by
  intro idx covered
  have range := (covers_range pos addr fits).mp covered
  omega

/-- The slot is fixed by the mapping's address. -/
theorem on_slot_eq {slot' : Slot} (pos : 0 < m.size) (addr : m.addr = slotVirt L slot + m.physAddr % pageSize)
    (on : m.On L slot') : slot' = slot := by
  have some_page : 0 < pages m.physAddr m.size := by
    unfold pages pageSize
    omega
  obtain ⟨low, high⟩ := on (slotIdx slot - 0) ((covers_iff pos addr).mpr ⟨0, some_page, rfl⟩)
  have lower := slotIdx_ge slot'
  unfold fixBtmapEnd at lower
  exact slot_eq (i := slotIdx slot' - slotIdx slot) (j := 0) (by omega) (by decide) (by omega)

theorem maps_of_entries {fixmap : Nat → Option Nat} (addr : m.addr = slotVirt L slot + m.physAddr % pageSize)
    (entries : ∀ k, k < pages m.physAddr m.size →
      fixmap (slotIdx slot - k) = some (m.physAddr / pageSize * pageSize + k * pageSize)) : m.Maps L fixmap := by
  intro b below
  rw [addr, Nat.add_assoc, virtToFix_slot, entries _ (by unfold pages pageSize; omega)]
  refine congrArg some ?_
  unfold pageSize
  omega

end InSlot

theorem findSlot_some {s : State} {addr : Nat} {slot : Slot} (found : findSlot s addr = some slot) :
    s.prevMap slot = addr := by simpa using List.find?_some found

theorem findSlot_none {s : State} {addr : Nat} (missing : findSlot s addr = none) (slot : Slot) : s.prevMap slot ≠ addr := by
  have none_of := List.find?_eq_none.mp missing slot (List.mem_finRange slot)
  simpa using none_of

/-! ## The invariant -/

structure Sound (L : Layout) (sys : System) : Prop where
  mapped : ∀ m ∈ sys.live, ∃ slot, Mapped L sys.state m slot
  used : ∀ slot, sys.state.prevMap slot ≠ 0 → ∃ m ∈ sys.live, Mapped L sys.state m slot
  apart : sys.live.Pairwise fun a b => a.addr ≠ b.addr

/-- The request has so few pages that the narrowed number is right, or the narrowed number is
    too large as well.  Requests that are refused earlier do not matter. -/
def Counted (sys : System) : Call → Prop
  | .ioremap physAddr size => findSlot sys.state 0 ≠ none → 0 < size → physAddr + size ≤ 2 ^ 64 →
      pages physAddr size < 2 ^ 32 ∨ nrFixBtmaps < u32 (pages physAddr size)
  | .iounmap _ _ => True

/-- A new mapping of the request is in a slot that no live mapping has, and the entries of its
    pages are the only ones that changed. -/
structure Handed (L : Layout) (sys : System) (state : State) (m : Mapping) : Prop where
  maps : m.Maps L state.fixmap
  offset : m.addr % pageSize = m.physAddr % pageSize
  slot : ∃ slot, m.On L slot ∧ ∀ other ∈ sys.live, ¬other.On L slot
  frame : ∀ idx, ¬m.Covers L idx → state.fixmap idx = sys.state.fixmap idx

/-- What a call has to do in a state. -/
def CallOk (L : Layout) (sys : System) : Call → Prop
  | .ioremap physAddr size =>
      let (state, result) := earlyIoremap L sys.state physAddr size
      (∀ addr, result = some addr → Handed L sys state ⟨addr, physAddr, size⟩) ∧
        (¬(0 < size ∧ physAddr + size ≤ 2 ^ 64 ∧ pages physAddr size ≤ nrFixBtmaps) → result = none) ∧
        (result = none → state.fixmap = sys.state.fixmap)
  | .iounmap addr size =>
      (∀ m ∈ sys.live, m.addr = addr → m.size = size →
        (∀ idx, m.Covers L idx → (earlyIounmap L sys.state addr size).fixmap idx = none) ∧
        (∀ idx, ¬m.Covers L idx → (earlyIounmap L sys.state addr size).fixmap idx = sys.state.fixmap idx) ∧
        ∃ slot, m.On L slot ∧
          (earlyIounmap L sys.state addr size).prevMap = Function.update sys.state.prevMap slot 0) ∧
      ((∀ m ∈ sys.live, ¬(m.addr = addr ∧ m.size = size)) → earlyIounmap L sys.state addr size = sys.state)

section Steps

variable {sys : System}

/-- The cases of a request. -/
theorem earlyIoremap_cases {s : State} {physAddr size : Nat} (word : physAddr < 2 ^ 64) (sizeWord : size < 2 ^ 64) :
    (((earlyIoremap L s physAddr size).2 = none ∧ (earlyIoremap L s physAddr size).1.fixmap = s.fixmap ∧
        (earlyIoremap L s physAddr size).1.prevMap = s.prevMap ∧
        ∀ slot, s.prevMap slot ≠ 0 → (earlyIoremap L s physAddr size).1.prevSize slot = s.prevSize slot) ∧
      (findSlot s 0 ≠ none → 0 < size → physAddr + size ≤ 2 ^ 64 → nrFixBtmaps < u32 (pages physAddr size))) ∨
    ∃ slot, s.prevMap slot = 0 ∧ 0 < size ∧ physAddr + size ≤ 2 ^ 64 ∧ u32 (pages physAddr size) ≤ nrFixBtmaps ∧
      earlyIoremap L s physAddr size =
        ({ fixmap := setPages s.fixmap (slotIdx slot) (physAddr / pageSize * pageSize) (u32 (pages physAddr size))
           prevMap := Function.update s.prevMap slot (slotVirt L slot + physAddr % pageSize)
           prevSize := Function.update s.prevSize slot size }, some (slotVirt L slot + physAddr % pageSize)) := by
  unfold earlyIoremap
  cases found : findSlot s 0 with
  | none => exact .inl ⟨⟨rfl, rfl, rfl, fun _ _ => rfl⟩, fun some_slot => absurd rfl some_slot⟩
  | some slot =>
      have free := findSlot_some found
      simp only
      split
      · rename_i refused
        refine .inl ⟨⟨rfl, rfl, rfl, fun _ _ => rfl⟩, fun _ pos room => ?_⟩
        exact absurd ⟨pos, room⟩ ((wraps_iff word sizeWord).mp refused)
      · rename_i proper
        obtain ⟨pos, room⟩ := not_not.mp (mt (wraps_iff word sizeWord).mpr proper)
        rw [mapped_count word pos room]
        split
        · rename_i large
          refine .inl ⟨⟨rfl, rfl, rfl, fun other inUse => ?_⟩, fun _ _ _ => large⟩
          refine Function.update_of_ne ?_ _ _
          rintro rfl
          exact inUse free
        · rename_i small
          have addr : u64 (physAddr % pageSize + slotVirt L slot) = slotVirt L slot + physAddr % pageSize := by
            obtain ⟨-, below, -⟩ := @slotVirt_bounds L slot
            have low := Nat.mod_lt physAddr (show 0 < pageSize by decide)
            rw [Nat.add_comm]
            apply u64_of_lt
            omega
          rw [addr]
          exact .inr ⟨slot, free, pos, room, not_lt.mp small, rfl⟩

/-- A slot in use stays as it is when the entries and the record of it do. -/
theorem Mapped.congr {s s' : State} {m : Mapping} {slot : Slot} (mapped : Mapped L s m slot)
    (prevMap : s'.prevMap slot = s.prevMap slot) (prevSize : s'.prevSize slot = s.prevSize slot)
    (fixmap : ∀ k, k < nrFixBtmaps → s'.fixmap (slotIdx slot - k) = s.fixmap (slotIdx slot - k)) :
    Mapped L s' m slot where
  pos := mapped.pos
  word := mapped.word
  fits := mapped.fits
  addr := mapped.addr
  prevMap := prevMap.trans mapped.prevMap
  prevSize := prevSize.trans mapped.prevSize
  entries := fun k below => (fixmap k (below.trans_le mapped.fits)).trans (mapped.entries k below)

theorem Mapped.in_use {s : State} {m : Mapping} {slot : Slot} (mapped : Mapped L s m slot) : s.prevMap slot ≠ 0 := by
  obtain ⟨above, -⟩ := @slotVirt_bounds L slot
  rw [mapped.prevMap, mapped.addr]
  unfold pageSize at *
  omega

theorem Mapped.on {s : State} {m : Mapping} {slot : Slot} (mapped : Mapped L s m slot) : m.On L slot :=
  on_slot mapped.pos mapped.addr mapped.fits

/-- A request that is granted takes a slot that no live mapping has. -/
theorem granted {physAddr size : Nat} {slot : Slot} (sound : Sound L sys) (free : sys.state.prevMap slot = 0)
    (pos : 0 < size) (room : physAddr + size ≤ 2 ^ 64) (fits : pages physAddr size ≤ nrFixBtmaps) {state : State}
    (isState : state =
      { fixmap := setPages sys.state.fixmap (slotIdx slot) (physAddr / pageSize * pageSize) (pages physAddr size)
        prevMap := Function.update sys.state.prevMap slot (slotVirt L slot + physAddr % pageSize)
        prevSize := Function.update sys.state.prevSize slot size }) :
    Mapped L state ⟨slotVirt L slot + physAddr % pageSize, physAddr, size⟩ slot ∧
      Handed L sys state ⟨slotVirt L slot + physAddr % pageSize, physAddr, size⟩ ∧
      ∀ m other, other ≠ slot → Mapped L sys.state m other → Mapped L state m other := by
  have lower := slotIdx_ge slot
  unfold fixBtmapEnd at lower
  have pagesWord : physAddr / pageSize * pageSize + pages physAddr size * pageSize ≤ 2 ^ 64 := by
    unfold pages pageSize
    omega
  have entry := @setPages_apply sys.state.fixmap (slotIdx slot) (physAddr / pageSize * pageSize) (pages physAddr size)
    (by omega) pagesWord
  have mapped : Mapped L state ⟨slotVirt L slot + physAddr % pageSize, physAddr, size⟩ slot := by
    subst isState
    refine ⟨pos, room, fits, rfl, Function.update_self .., Function.update_self .., fun k below => ?_⟩
    have below' : k < pages physAddr size := below
    simp only [entry]
    rw [if_pos (by omega), show slotIdx slot - (slotIdx slot - k) = k by omega]
  refine ⟨mapped, ⟨maps_of_entries mapped.addr mapped.entries, ?_, ⟨slot, mapped.on, ?_⟩, ?_⟩, ?_⟩
  · obtain ⟨-, -, aligned, -⟩ := @slotVirt_bounds L slot
    simp only
    unfold pageSize at *
    omega
  · intro other mem on
    obtain ⟨slot', mapped'⟩ := sound.mapped other mem
    obtain rfl := on_slot_eq mapped'.pos mapped'.addr on
    exact mapped'.in_use free
  · intro idx outside
    have range := mt (covers_range mapped.pos mapped.addr mapped.fits).mpr outside
    subst isState
    simp only [entry]
    exact if_neg range
  · intro m other differs mapped'
    subst isState
    refine mapped'.congr (Function.update_of_ne differs ..) (Function.update_of_ne differs ..) fun k below => ?_
    simp only [entry]
    refine if_neg fun range => differs ?_
    exact slot_eq (j := slotIdx slot - (slotIdx other - k)) below (by omega) (by omega)

/-- The slot of a mapping that is given back. -/
theorem released {m : Mapping} {slot : Slot} (mapped : Mapped L sys.state m slot)
    (found : findSlot sys.state m.addr = some slot) :
    earlyIounmap L sys.state m.addr m.size =
      { sys.state with
        fixmap := clearPages sys.state.fixmap (slotIdx slot) (pages m.physAddr m.size)
        prevMap := Function.update sys.state.prevMap slot 0 } := by
  obtain ⟨-, -, aligned, above, -⟩ := @slotVirt_bounds L slot
  have addr := mapped.addr
  have offset : m.addr % pageSize = m.physAddr % pageSize := by
    unfold pageSize at *
    omega
  unfold earlyIounmap
  simp only [found]
  rw [if_neg (not_not.mpr mapped.prevSize), if_neg (by omega), offset, unmapped_count,
    u32_small mapped.fits]

/-- The live mapping with an address has the slot that is found for it. -/
theorem Sound.found {addr : Nat} {slot : Slot} (sound : Sound L sys) (nonzero : addr ≠ 0)
    (found : findSlot sys.state addr = some slot) : ∃ m ∈ sys.live, m.addr = addr ∧ Mapped L sys.state m slot := by
  have prevMap := findSlot_some found
  obtain ⟨m, mem, mapped⟩ := sound.used slot (by rwa [prevMap])
  exact ⟨m, mem, mapped.prevMap.symm.trans prevMap, mapped⟩

theorem Sound.unique {a b : Mapping} (sound : Sound L sys) (memA : a ∈ sys.live) (memB : b ∈ sys.live)
    (same : a.addr = b.addr) : a = b := by
  have symmetric : Std.Symm fun a b : Mapping => a.addr ≠ b.addr := ⟨fun _ _ => Ne.symm⟩
  by_contra differ
  exact sound.apart.forall memA memB differ same

/-- A call to give back what is not live changes nothing. -/
theorem iounmap_other {addr size : Nat} (sound : Sound L sys) (missing : ∀ m ∈ sys.live, ¬(m.addr = addr ∧ m.size = size)) :
    earlyIounmap L sys.state addr size = sys.state := by
  unfold earlyIounmap
  cases found : findSlot sys.state addr with
  | none => rfl
  | some slot =>
      simp only
      split
      · rfl
      · rename_i sameSize
        split
        · rfl
        · rename_i inRange
          -- the address is not zero, so the slot is in use
          obtain ⟨-, -, -, -, pos⟩ := @slotVirt_bounds L slot
          obtain ⟨m, mem, same, mapped⟩ := sound.found (by omega) found
          exact absurd ⟨same, mapped.prevSize.symm.trans (not_not.mp sameSize)⟩ (missing m mem)

/-- A call to give back a live mapping finds its slot. -/
theorem Sound.live_slot {m : Mapping} (sound : Sound L sys) (mem : m ∈ sys.live) :
    ∃ slot, findSlot sys.state m.addr = some slot ∧ Mapped L sys.state m slot := by
  obtain ⟨slot, mapped⟩ := sound.mapped m mem
  cases found : findSlot sys.state m.addr with
  | none => exact absurd mapped.prevMap (findSlot_none found slot)
  | some first =>
      have nonzero : m.addr ≠ 0 := mapped.prevMap ▸ mapped.in_use
      obtain ⟨m', mem', same, mapped'⟩ := sound.found nonzero found
      obtain rfl := sound.unique mem' mem same
      exact ⟨first, rfl, mapped'⟩

theorem iounmap_ok (sound : Sound L sys) (addr size : Nat) : CallOk L sys (.iounmap addr size) := by
  refine ⟨?_, iounmap_other sound⟩
  rintro m mem rfl rfl
  obtain ⟨slot, found, mapped⟩ := sound.live_slot mem
  have lower := slotIdx_ge slot
  have fits := mapped.fits
  unfold fixBtmapEnd at lower
  have entry := @clearPages_apply sys.state.fixmap (slotIdx slot) (pages m.physAddr m.size) (by omega)
  have range {idx : Nat} := @covers_range L m slot mapped.pos mapped.addr mapped.fits idx
  rw [released mapped found]
  refine ⟨fun idx inside => ?_, fun idx outside => ?_, slot, mapped.on, rfl⟩
  · exact (entry idx).trans (if_pos (range.mp inside))
  · exact (entry idx).trans (if_neg (mt range.mpr outside))

theorem ioremap_ok_iff {physAddr size : Nat} (sound : Sound L sys) (words : (Call.ioremap physAddr size).Words) :
    CallOk L sys (.ioremap physAddr size) ↔ Counted sys (.ioremap physAddr size) := by
  obtain ⟨word, sizeWord⟩ := words
  simp only [CallOk, Counted]
  rcases @earlyIoremap_cases L sys.state physAddr size word sizeWord with
    ⟨⟨refused, kept, -, -⟩, large⟩ | ⟨slot, free, pos, room, small, granted_eq⟩
  · constructor
    · intro _ some_slot pos room
      exact .inr (large some_slot pos room)
    · intro _
      refine ⟨fun addr result => ?_, fun _ => refused, fun _ => kept⟩
      rw [refused] at result
      exact absurd result.symm (Option.some_ne_none addr)
  · constructor
    · rintro ⟨-, refused, -⟩ - - -
      by_contra wrong
      push Not at wrong
      have result := refused fun fits => by
        have few := fits.2.2
        unfold nrFixBtmaps at few
        omega
      rw [granted_eq] at result
      exact absurd result (Option.some_ne_none _)
    · intro counted
      have some_slot : findSlot sys.state 0 ≠ none := fun missing => findSlot_none missing slot free
      have narrow := (counted some_slot pos room).resolve_right (not_lt.mpr small)
      have exact_count : u32 (pages physAddr size) = pages physAddr size := Nat.mod_eq_of_lt narrow
      rw [exact_count] at small granted_eq
      obtain ⟨-, handed, -⟩ := granted sound free pos room small rfl
      rw [granted_eq]
      refine ⟨fun addr result => ?_, fun refused => absurd ⟨pos, room, small⟩ refused, fun result => ?_⟩
      · obtain rfl := Option.some.inj result
        exact handed
      · exact absurd result (Option.some_ne_none _)

theorem Sound.ioremap {physAddr size : Nat} (sound : Sound L sys) (words : (Call.ioremap physAddr size).Words)
    (counted : Counted sys (.ioremap physAddr size)) : Sound L (step L sys (.ioremap physAddr size)) := by
  obtain ⟨word, sizeWord⟩ := words
  simp only [step]
  rcases @earlyIoremap_cases L sys.state physAddr size word sizeWord with
    ⟨⟨refused, fixmap, prevMap, prevSize⟩, -⟩ | ⟨slot, free, pos, room, small, granted_eq⟩
  · have kept {m : Mapping} {slot : Slot} (mapped : Mapped L sys.state m slot) :
        Mapped L (earlyIoremap L sys.state physAddr size).1 m slot :=
      mapped.congr (by rw [prevMap]) (prevSize slot mapped.in_use) (fun _ _ => by rw [fixmap])
    rw [refused]
    refine ⟨fun m mem => ?_, fun slot inUse => ?_, sound.apart⟩
    · obtain ⟨slot, mapped⟩ := sound.mapped m mem
      exact ⟨slot, kept mapped⟩
    · simp only [prevMap] at inUse
      obtain ⟨m, mem, mapped⟩ := sound.used slot inUse
      exact ⟨m, mem, kept mapped⟩
  · have some_slot : findSlot sys.state 0 ≠ none := fun missing => findSlot_none missing slot free
    have narrow := (counted some_slot pos room).resolve_right (not_lt.mpr small)
    have exact_count : u32 (pages physAddr size) = pages physAddr size := Nat.mod_eq_of_lt narrow
    rw [exact_count] at small granted_eq
    obtain ⟨mapped, -, others⟩ := granted sound free pos room small rfl
    have apartSlot {m : Mapping} {other : Slot} (held : Mapped L sys.state m other) : other ≠ slot := by
      rintro rfl
      exact held.in_use free
    rw [granted_eq]
    refine ⟨fun m mem => ?_, fun other inUse => ?_, ?_⟩
    · rcases List.mem_cons.mp mem with rfl | old
      · exact ⟨slot, mapped⟩
      · obtain ⟨other, held⟩ := sound.mapped m old
        exact ⟨other, others m other (apartSlot held) held⟩
    · rcases eq_or_ne other slot with rfl | differs
      · exact ⟨_, List.mem_cons_self, mapped⟩
      · have inUse' : sys.state.prevMap other ≠ 0 := by
          simpa only [Function.update_of_ne differs] using inUse
        obtain ⟨m, mem, held⟩ := sound.used other inUse'
        exact ⟨m, List.mem_cons_of_mem _ mem, others m other differs held⟩
    · refine List.pairwise_cons.mpr ⟨fun m mem same => ?_, sound.apart⟩
      -- a live mapping with this address would have the slot
      obtain ⟨other, held⟩ := sound.mapped m mem
      have address : m.addr = slotVirt L slot + physAddr % pageSize := same.symm
      have first := @virtToFix_slot L slot (physAddr % pageSize)
      have second := @virtToFix_slot L other (m.physAddr % pageSize)
      rw [← address, held.addr, second, Nat.div_eq_of_lt (Nat.mod_lt _ (by decide)),
        Nat.div_eq_of_lt (Nat.mod_lt _ (by decide))] at first
      exact apartSlot held (slot_eq (by decide) (by decide) first)

theorem Sound.iounmap {addr size : Nat} (sound : Sound L sys) : Sound L (step L sys (.iounmap addr size)) := by
  simp only [step]
  by_cases given : ∃ m ∈ sys.live, m.addr = addr ∧ m.size = size
  · obtain ⟨m, mem, rfl, rfl⟩ := given
    obtain ⟨slot, found, mapped⟩ := sound.live_slot mem
    have lower := slotIdx_ge slot
    have fits := mapped.fits
    unfold fixBtmapEnd at lower
    have entry := @clearPages_apply sys.state.fixmap (slotIdx slot) (pages m.physAddr m.size) (by omega)
    have others {m' : Mapping} {other : Slot} (differs : other ≠ slot) (held : Mapped L sys.state m' other) :
        Mapped L { sys.state with
          fixmap := clearPages sys.state.fixmap (slotIdx slot) (pages m.physAddr m.size)
          prevMap := Function.update sys.state.prevMap slot 0 } m' other := by
      refine held.congr (Function.update_of_ne differs ..) rfl fun k below => ?_
      refine (entry _).trans (if_neg fun range => differs ?_)
      exact slot_eq (j := slotIdx slot - (slotIdx other - k)) below (by omega) (by omega)
    rw [released mapped found]
    refine ⟨fun m' mem' => ?_, fun other inUse => ?_, sound.apart.filter _⟩
    · obtain ⟨old, kept⟩ := List.mem_filter.mp mem'
      obtain ⟨other, held⟩ := sound.mapped m' old
      refine ⟨other, others ?_ held⟩
      rintro rfl
      have same : m' = m := sound.unique old mem (held.prevMap.symm.trans mapped.prevMap)
      simp [same] at kept
    · have differs : other ≠ slot := by
        rintro rfl
        exact inUse (Function.update_self ..)
      have inUse' : sys.state.prevMap other ≠ 0 := by
        simpa only [Function.update_of_ne differs] using inUse
      obtain ⟨m', mem', held⟩ := sound.used other inUse'
      refine ⟨m', List.mem_filter.mpr ⟨mem', ?_⟩, others differs held⟩
      simp only [decide_eq_true_eq]
      rintro ⟨same, -⟩
      obtain rfl := sound.unique mem' mem same
      exact differs (on_slot_eq mapped.pos mapped.addr held.on)
  · push Not at given
    have missing : ∀ m ∈ sys.live, ¬(m.addr = addr ∧ m.size = size) := fun m mem both => given m mem both.1 both.2
    have kept : (sys.live.filter fun m => ¬(m.addr = addr ∧ m.size = size)) = sys.live :=
      List.filter_eq_self.mpr fun m mem => decide_eq_true (missing m mem)
    rw [iounmap_other sound missing, kept]
    exact ⟨sound.mapped, sound.used, sound.apart⟩

end Steps

/-! ## Runs -/

theorem reachable_sound {sys : System} (run : Reachable L Counted sys) : Sound L sys := by
  induction run with
  | setup fixmap prevSize => exact ⟨nofun, fun slot inUse => absurd rfl inUse, .nil⟩
  | step call before words meets ih =>
      cases call with
      | ioremap physAddr size => exact ih.ioremap words meets
      | iounmap addr size => exact ih.iounmap

/-- The fixmap of a kernel with a `struct page` of sixty-four bytes. -/
def fixmapLayout : Layout where
  topPage := 2 ^ 52 - 2 ^ 35 - 2 ^ 29 - 2 ^ 9
  room := by decide
  word := by decide

def freshState : State := ⟨fun _ => none, fun _ => 0, fun _ => 0⟩

end Miracle.EarlyIoremap
