import Miracle.Memblock.BootAlloc

/-! # Runs of boot memory allocations

The blocks that the allocators have handed out and the caller has not freed.  They are reserved, disjoint from each other
and from the region arrays, in every order of allocations and frees.
-/

namespace Miracle.Memblock

open Extent

/-! ## Sessions -/

/-- The memblock state with the blocks in use, each with its base and its size. -/
structure Session where
  mb : State
  live : List (Nat × Nat)

/-- A call of an allocator, with arguments of the source's 64 bit type. -/
inductive AllocCall where
  | range (size align start end_ : BitVec 64) (flags : Flags)
  | phys (size align : BitVec 64)
  | internal (size align minAddr maxAddr : BitVec 64)

namespace AllocCall

def size : AllocCall → Nat
  | range size _ _ _ _ | phys size _ | internal size _ _ _ => size.toNat

def align : AllocCall → Nat
  | range _ align _ _ _ | phys _ align | internal _ align _ _ => orCacheBytes align.toNat

def flags : AllocCall → Flags
  | range _ _ _ _ flags => flags
  | phys _ _ | internal _ _ _ _ => Flags.none

/-- The lower bound of the search; that of `memblock_alloc_internal` is only a preference. -/
def lower : AllocCall → Nat
  | range _ _ start _ _ => max start.toNat pageSize
  | phys _ _ | internal _ _ _ _ => pageSize

/-- The upper bound of the search. -/
def upper (mb : State) : AllocCall → Nat
  | range _ _ _ end_ _ => effectiveEnd mb end_.toNat
  | phys _ _ => mb.currentLimit.toNat
  | internal _ _ _ maxAddr => min (effectiveEnd mb maxAddr.toNat) mb.currentLimit.toNat

def run (env : Env) (kzalloc : Nat → Nat) (mb : State) : AllocCall → Except Bug (State × Nat)
  | range size align start end_ flags =>
      memblockAllocRange env mb size.toNat align.toNat start.toNat end_.toNat flags
  | phys size align => memblockPhysAlloc env mb size.toNat align.toNat
  | internal size align minAddr maxAddr =>
      memblockAllocInternal env kzalloc mb size.toNat align.toNat minAddr.toNat maxAddr.toNat

end AllocCall

inductive BootCall where
  | alloc (call : AllocCall)
  | free (block : Nat × Nat)

/-- One call.  Only a block in use can be freed; a block that could not be freed stays in use. -/
def bootStep (env : Env) (kzalloc : Nat → Nat) (s : Session) : BootCall → Except Bug Session
  | .alloc call => do
      let (mb, a) ← call.run env kzalloc s.mb
      return ⟨mb, if a = 0 then s.live else (a, call.size) :: s.live⟩
  | .free block =>
      if block ∈ s.live then do
        let (mb, ret) ← memblockFree env s.mb block.1 block.2
        return ⟨mb, if ret = 0 then s.live.erase block else s.live⟩
      else return s

def bootRun (kzalloc : Nat → Nat) (s : Session) : List (Env × BootCall) → Except Bug Session
  | [] => .ok s
  | (env, call) :: calls => do
      let s ← bootStep env kzalloc s call
      bootRun kzalloc s calls

/-! ## The invariant -/

/-- The two blocks have no address in common. -/
def Separate (b c : Nat × Nat) : Prop := b.1 + b.2 ≤ c.1 ∨ c.1 + c.2 ≤ b.1

instance : Std.Symm Separate := ⟨fun _ _ => Or.symm⟩

/-- All of the block is reserved, and no array has its storage there. -/
structure Secure (mb : State) (b : Nat × Nat) : Prop where
  pos : 0 < b.2
  covered : Covers mb b.1 (b.1 + b.2)
  clear : ∀ ty block, heldBlock (mb.type ty) = some block → Separate b block

/-- The arrays are static or in reserved memory. -/
structure ArraysOk (mb : State) : Prop where
  good : Good mb
  apart : Apart mb
  held : ∀ ty, Held mb ty

/-- What holds between the calls.  `pinned` are reserved ranges that nobody frees, such as the kernel image with its
    static arrays. -/
structure BootInv (pinned : List (Nat × Nat)) (s : Session) : Prop where
  arrays : ArraysOk s.mb
  live : ∀ b ∈ s.live, Secure s.mb b
  fixed : ∀ b ∈ pinned, Secure s.mb b
  separate : s.live.Pairwise Separate
  apart : ∀ b ∈ s.live, ∀ p ∈ pinned, Separate b p

/-! ## Moving the array of `reserved` -/

section

variable {env : Env} (slab : env.slabIsAvailable = false) {mb mid : State} {base size : Nat} (ok : ArraysOk mb)
  (settled : Settled env base size mb mid)

include slab ok settled

theorem Settled.arrays : ArraysOk mid := by
  rcases settled with rfl | ⟨addr, doubled⟩
  · exact ok
  · exact ⟨doubled.good, doubled.apart, fun ty => (doubled.held slab).2 ty (ok.held ty)⟩

/-- A secure block keeps clear of the new storage, which was free. -/
theorem Settled.secure {b : Nat × Nat} (secure : Secure mb b) : Secure mid b := by
  rcases settled with rfl | ⟨addr, doubled⟩
  · exact secure
  obtain ⟨max, array, inSlab⟩ := doubled.moved.storage_fields
  obtain ⟨-, -, free, -⟩ := doubled.place slab
  refine ⟨secure.pos, ?_, ?_⟩
  · intro x low high
    rw [doubled.moved.map_eq]
    apply claimBlock_ne_none
    rw [releaseBlock_of_outside]
    · exact secure.covered x low high
    · intro block theirs inside
      have sides := secure.clear .reserved block theirs
      unfold Separate at sides
      omega
  · intro ty block theirs
    cases ty with
    | memory =>
        rw [heldBlock_storage (doubled.moved.other .memory (by decide))] at theirs
        exact secure.clear .memory block theirs
    | reserved =>
        obtain ⟨-, at_, length⟩ := heldBlock_eq_some theirs
        rw [array] at at_
        cases at_
        rw [max] at length
        have bounds := (ok.good.sized .reserved).bounds
        have storage := arrayAllocSize_ge (by omega : (mb.type .reserved).max * 2 ≤ 2 ^ 59)
        simp only [sizeofRegion] at storage
        have sides := secure.covered.disjoint free (Nat.lt_add_of_pos_right secure.pos) (by omega)
        rw [← length] at sides
        exact sides

/-- The new storage also keeps clear of the free block that is being reserved. -/
theorem Settled.avoids (pos : 0 < size) (low : base ≠ 0)
    (free : ∀ x, base ≤ x → x < base + size → mb.map .reserved x = none) (ty : TypeId) (block : Nat × Nat)
    (theirs : heldBlock (mid.type ty) = some block) : Separate (base, size) block := by
  have before {ty : TypeId} {block : Nat × Nat} (theirs : heldBlock (mb.type ty) = some block) :
      Separate (base, size) block := by
    obtain ⟨-, at_, length⟩ := heldBlock_eq_some theirs
    have bounds := (ok.good.sized ty).bounds
    have storage := arrayAllocSize_ge (by omega : (mb.type ty).max ≤ 2 ^ 59)
    simp only [sizeofRegion] at storage
    have sides := (ok.held ty _ at_).2.disjoint free (by omega) (by omega)
    rw [← length] at sides
    exact sides.symm
  rcases settled with rfl | ⟨addr, doubled⟩
  · exact before theirs
  obtain ⟨max, array, inSlab⟩ := doubled.moved.storage_fields
  cases ty with
  | memory =>
      rw [heldBlock_storage (doubled.moved.other .memory (by decide))] at theirs
      exact before theirs
  | reserved =>
      obtain ⟨-, at_, length⟩ := heldBlock_eq_some theirs
      rw [array] at at_
      cases at_
      rw [max] at length
      have sides := (doubled.place slab).2.2.2 rfl low
      rw [← length] at sides
      exact sides

end

/-! ## Reserving and releasing a block -/

section

variable {mb mid mb' : State} {base size : Nat}

theorem ArraysOk.reserve (ok : ArraysOk mid) (edit : Edit .reserved (withRange base size Flags.none) mid mb')
    (inv : Inv mb') : ArraysOk mb' :=
  ⟨ok.good.edit edit inv, ok.apart.edit edit, fun ty => edit.held_withRange (ok.held ty)⟩

theorem Secure.reserve {b : Nat × Nat} (secure : Secure mid b)
    (edit : Edit .reserved (withRange base size Flags.none) mid mb') : Secure mb' b := by
  refine ⟨secure.pos, ?_, ?_⟩
  · intro x low high none
    rw [edit.map_eq] at none
    exact secure.covered x low high (Option.or_eq_none_iff.mp none).1
  · intro ty block theirs
    rw [heldBlock_storage (edit.storage_eq ty)] at theirs
    exact secure.clear ty block theirs

/-- What is apart from the released block stays reserved. -/
theorem Covers.release {lo hi : Nat} (covers : Covers mid lo hi) (edit : Edit .reserved (withoutRange base size) mid mb')
    (sides : base + size ≤ lo ∨ hi ≤ base) : Covers mb' lo hi := by
  intro x low high
  have outside : ¬ InRange base size x := by
    rintro ⟨above, below⟩
    unfold memblockCapSize at below
    omega
  rw [edit.map_eq, withoutRange, if_neg outside]
  exact covers x low high

theorem Secure.release {b : Nat × Nat} (secure : Secure mid b) (edit : Edit .reserved (withoutRange base size) mid mb')
    (apart : Separate (base, size) b) : Secure mb' b := by
  refine ⟨secure.pos, secure.covered.release edit apart, ?_⟩
  intro ty block theirs
  rw [heldBlock_storage (edit.storage_eq ty)] at theirs
  exact secure.clear ty block theirs

theorem ArraysOk.release (ok : ArraysOk mid) (secure : Secure mid (base, size))
    (edit : Edit .reserved (withoutRange base size) mid mb') (inv : Inv mb') : ArraysOk mb' := by
  refine ⟨ok.good.edit edit inv, ok.apart.edit edit, ?_⟩
  intro ty pa array
  have same := edit.storage_eq ty
  simp only [MemblockType.storage, Prod.mk.injEq] at same
  obtain ⟨max, array', inSlab⟩ := same
  rw [array'] at array
  rw [max, inSlab]
  obtain ⟨off, covers⟩ := ok.held ty pa array
  have mine : heldBlock (mid.type ty) = some (pa, arrayAllocSize (mid.type ty).max) := by
    simp only [heldBlock, off, array]
  exact ⟨off, covers.release edit (secure.clear ty _ mine)⟩

end

/-! ## One call -/

/-- A free block has been reserved and nothing else has been lost. -/
structure Taken (mb mb' : State) (b : Nat × Nat) : Prop where
  unreserved : ∀ x, b.1 ≤ x → x < b.1 + b.2 → mb.map .reserved x = none
  arrays : ArraysOk mb'
  self : Secure mb' b
  others : ∀ c, Secure mb c → Secure mb' c

theorem Taken.separate {mb mb' : State} {b c : Nat × Nat} (taken : Taken mb mb' b) (secure : Secure mb c) :
    Separate b c := by
  have sides := secure.covered.disjoint taken.unreserved (Nat.lt_add_of_pos_right secure.pos)
    (Nat.lt_add_of_pos_right taken.self.pos)
  exact sides.symm

section

variable {env : Env} (slab : env.slabIsAvailable = false) {mb : State} (ok : ArraysOk mb)

include slab ok

/-- A search and the reservation of its block succeed or change nothing. -/
theorem findAndReserve_spec {flags : Flags} {size align start end_ : Nat} (pos : 0 < size) (low : start ≤ physAddrMax)
    (high : end_ ≤ physAddrMax) :
    (∃ mb' a, findAndReserve env mb size align start end_ flags = .ok (mb', a) ∧ a ≠ 0 ∧
        Granted mb size align (max start pageSize) (effectiveEnd mb end_) flags a ∧ Taken mb mb' (a, size)) ∨
      findAndReserve env mb size align start end_ flags = .ok (mb, 0) := by
  unfold findAndReserve
  generalize result : memblockFindInRange' env mb size align start end_ flags = a
  simp only
  by_cases found : a = 0
  · rw [if_pos found]
    exact .inr rfl
  rw [if_neg found]
  have granted := findInRange_granted env ok.good.inv pos low high result found
  have free (x : Nat) (above : a ≤ x) (below : x < a + size) : mb.map .reserved x = none :=
    granted.gap.free (ok.good.inv .reserved) above below
  rcases reserve_free slab ok.good ok.apart ok.held pos found granted.gap.1 free with
    ⟨mid, mb', done, settled, edit, inv⟩ | ⟨ret, done, failed⟩
  · left
    have arrays := settled.arrays slab ok
    refine ⟨mb', a, ?_, found, granted, free, arrays.reserve edit inv, ⟨pos, ?_, ?_⟩, ?_⟩
    · rw [done]
      rfl
    · intro x above below
      apply edit.covered
      have bound := granted.gap.1
      simp only at above below
      constructor
      · exact above
      · unfold memblockCapSize
        omega
    · intro ty block theirs
      rw [heldBlock_storage (edit.storage_eq ty)] at theirs
      exact settled.avoids slab ok pos found free ty block theirs
    · intro c secure
      exact (settled.secure slab ok secure).reserve edit
  · right
    rw [done, ok_bind]
    simp only [if_neg failed]
    rfl

/-- Releasing a block in use. -/
theorem memblockFree_spec {b : Nat × Nat} (secure : Secure mb b) :
    (∃ mb', memblockFree env mb b.1 b.2 = .ok (mb', 0) ∧ ArraysOk mb' ∧
        ∀ c, Secure mb c → Separate b c → Secure mb' c) ∨
      ∃ ret, memblockFree env mb b.1 b.2 = .ok (mb, ret) ∧ ret ≠ 0 := by
  have bound := secure.covered.le ok.good.inv (Nat.lt_add_of_pos_right secure.pos)
  rcases free_reserved ok.good ok.apart ok.held secure.pos bound with
    ⟨mid, mb', done, settled, edit, inv⟩ | failed
  · left
    refine ⟨mb', done, (settled.arrays slab ok).release (settled.secure slab ok secure) edit inv, ?_⟩
    intro c secure' apart
    exact (settled.secure slab ok secure').release edit apart
  · exact .inr failed

end

/-- `memblock_alloc_internal` goes below its lower bound only after a failure above it. -/
def AllocCall.Preferred (env : Env) (mb : State) (a : Nat) : AllocCall → Prop
  | range _ _ _ _ _ | phys _ _ => True
  | internal size align minAddr maxAddr =>
      minAddr.toNat ≤ a ∨ findAndReserve env mb size.toNat (orCacheBytes align.toNat) minAddr.toNat
        (if maxAddr.toNat > mb.currentLimit.toNat then mb.currentLimit.toNat else maxAddr.toNat) Flags.none = .ok (mb, 0)

theorem Granted.mono {mb : State} {size align start end_ start' end_' a : Nat} {flags : Flags}
    (granted : Granted mb size align start end_ flags a) (low : start' ≤ start) (high : end_ ≤ end_') :
    Granted mb size align start' end_' flags a :=
  ⟨granted.aligned, low.trans granted.low, granted.high.trans high, granted.gap, granted.wanted⟩

theorem effectiveEnd_capped (mb : State) (maxAddr : Nat) :
    effectiveEnd mb (if maxAddr > mb.currentLimit.toNat then mb.currentLimit.toNat else maxAddr) =
      min (effectiveEnd mb maxAddr) mb.currentLimit.toNat := by
  unfold effectiveEnd
  split_ifs
  all_goals omega

theorem word_le (x : BitVec 64) : x.toNat ≤ physAddrMax := by
  have lt := x.isLt
  simp only [physAddrMax]
  omega

section

variable {env : Env} (slab : env.slabIsAvailable = false) (kzalloc : Nat → Nat) {mb : State} (ok : ArraysOk mb)

include slab ok

/-- An allocation succeeds with a free block or changes nothing. -/
theorem AllocCall.run_spec (call : AllocCall) (pos : 0 < call.size) :
    (∃ mb' a, call.run env kzalloc mb = .ok (mb', a) ∧ a ≠ 0 ∧
        Granted mb call.size call.align call.lower (call.upper mb) call.flags a ∧ Taken mb mb' (a, call.size) ∧
        call.Preferred env mb a) ∨
      call.run env kzalloc mb = .ok (mb, 0) := by
  cases call with
  | range size align start end_ flags =>
      rcases @findAndReserve_spec env slab mb ok flags size.toNat (orCacheBytes align.toNat) start.toNat end_.toNat pos
        (word_le start) (word_le end_) with ⟨mb', a, done, found, granted, taken⟩ | done
      · exact .inl ⟨mb', a, done, found, granted, taken, trivial⟩
      · exact .inr done
  | phys size align =>
      rcases @findAndReserve_spec env slab mb ok Flags.none size.toNat (orCacheBytes align.toNat) 0 0 pos
        (Nat.zero_le _) (Nat.zero_le _) with ⟨mb', a, done, found, granted, taken⟩ | done
      · exact .inl ⟨mb', a, done, found, granted, taken, trivial⟩
      · exact .inr done
  | internal size align minAddr maxAddr =>
      have top : (if maxAddr.toNat > mb.currentLimit.toNat then mb.currentLimit.toNat else maxAddr.toNat) ≤
          physAddrMax := by
        split
        · exact word_le _
        · exact word_le _
      have upper := effectiveEnd_capped mb maxAddr.toNat
      simp only [AllocCall.run, memblockAllocInternal, slab, Bool.false_eq_true, if_false]
      rcases @findAndReserve_spec env slab mb ok Flags.none size.toNat (orCacheBytes align.toNat) minAddr.toNat _ pos
        (word_le minAddr) top with ⟨mb', a, done, found, granted, taken⟩ | first
      · left
        rw [upper] at granted
        refine ⟨mb', a, ?_, found, granted.mono (le_max_right _ _) le_rfl, taken, ?_⟩
        · rw [done, ok_bind]
          simp only [ne_eq, found, not_false_eq_true, if_true]
          rfl
        · exact .inl ((le_max_left _ _).trans granted.low)
      · rw [first, ok_bind]
        simp only [ne_eq, not_true_eq_false, if_false]
        by_cases zero : minAddr.toNat = 0
        · right
          rw [if_neg (not_not.mpr zero)]
          rfl
        · rw [if_pos zero]
          rcases @findAndReserve_spec env slab mb ok Flags.none size.toNat (orCacheBytes align.toNat) 0 _ pos
            (Nat.zero_le _) top with ⟨mb', a, done, found, granted, taken⟩ | second
          · rw [upper] at granted
            exact .inl ⟨mb', a, done, found, granted.mono (le_max_right _ _) le_rfl, taken, .inr first⟩
          · exact .inr second

end

/-! ## Whole runs -/

/-- What a successful allocation promises: its block was free memory and is reserved, aligned, in its limits and apart
    from everything in use, before and after the array of `reserved` has moved. -/
structure Handed (env : Env) (pinned : List (Nat × Nat)) (s : Session) (mb' : State) (call : AllocCall) (a : Nat) :
    Prop where
  memory : InWanted s.mb call.flags a (a + call.size)
  unreserved : ∀ x, a ≤ x → x < a + call.size → s.mb.map .reserved x = none
  reserved : Covers mb' a (a + call.size)
  aligned : ∀ k < 64, call.align = 2 ^ k → 2 ^ k ∣ a
  low : call.lower ≤ a
  high : a + call.size ≤ call.upper s.mb
  preferred : call.Preferred env s.mb a
  live : ∀ b ∈ s.live, Separate (a, call.size) b
  fixed : ∀ b ∈ pinned, Separate (a, call.size) b
  arrays : ∀ ty pa, (s.mb.type ty).array = some pa →
    Separate (a, call.size) (pa, (s.mb.type ty).max * sizeofRegion)
  newArrays : ∀ ty pa, (mb'.type ty).array = some pa →
    Separate (a, call.size) (pa, (mb'.type ty).max * sizeofRegion)

/-- A block that is clear of the page aligned storage is clear of the array in it. -/
theorem ArraysOk.separate {mb : State} (ok : ArraysOk mb) {b : Nat × Nat}
    (clear : ∀ ty block, heldBlock (mb.type ty) = some block → Separate b block) (ty : TypeId) (pa : Nat)
    (array : (mb.type ty).array = some pa) : Separate b (pa, (mb.type ty).max * sizeofRegion) := by
  obtain ⟨off, -⟩ := ok.held ty pa array
  have sides := clear ty (pa, arrayAllocSize (mb.type ty).max) (by simp only [heldBlock, off, array])
  have bounds := (ok.good.sized ty).bounds
  have storage := arrayAllocSize_ge (by omega : (mb.type ty).max ≤ 2 ^ 59)
  unfold Separate at *
  simp only at *
  omega

section

variable {env : Env} (slab : env.slabIsAvailable = false) (kzalloc : Nat → Nat) {pinned : List (Nat × Nat)} {s : Session}
  (inv : BootInv pinned s)

include slab inv

theorem BootInv.alloc (call : AllocCall) (pos : 0 < call.size) :
    (∃ mb' a, call.run env kzalloc s.mb = .ok (mb', a) ∧ a ≠ 0 ∧ Handed env pinned s mb' call a ∧
        BootInv pinned ⟨mb', (a, call.size) :: s.live⟩) ∨
      call.run env kzalloc s.mb = .ok (s.mb, 0) := by
  rcases call.run_spec slab kzalloc inv.arrays pos with ⟨mb', a, done, found, granted, taken, preferred⟩ | failed
  · left
    have live (b : Nat × Nat) (member : b ∈ s.live) := taken.separate (inv.live b member)
    have fixed (b : Nat × Nat) (member : b ∈ pinned) := taken.separate (inv.fixed b member)
    have before := (Settled.avoids slab inv.arrays (.inl rfl) pos found taken.unreserved)
    refine ⟨mb', a, done, found, ?_, ?_⟩
    · exact ⟨granted.wanted, taken.unreserved, taken.self.covered, granted.aligned, granted.low, granted.high, preferred,
        live, fixed, inv.arrays.separate before, taken.arrays.separate taken.self.clear⟩
    · refine ⟨taken.arrays, ?_, ?_, List.pairwise_cons.mpr ⟨live, inv.separate⟩, ?_⟩
      · intro b member
        rcases List.mem_cons.mp member with rfl | member
        · exact taken.self
        · exact taken.others b (inv.live b member)
      · intro b member
        exact taken.others b (inv.fixed b member)
      · intro b member
        rcases List.mem_cons.mp member with rfl | member
        · exact fixed
        · exact inv.apart b member
  · exact .inr failed

theorem BootInv.free {b : Nat × Nat} (member : b ∈ s.live) :
    (∃ mb', memblockFree env s.mb b.1 b.2 = .ok (mb', 0) ∧ BootInv pinned ⟨mb', s.live.erase b⟩) ∨
      ∃ ret, memblockFree env s.mb b.1 b.2 = .ok (s.mb, ret) ∧ ret ≠ 0 := by
  rcases memblockFree_spec slab inv.arrays (inv.live b member) with ⟨mb', done, arrays, others⟩ | failed
  · left
    have nodup : s.live.Nodup := by
      apply inv.separate.imp_of_mem
      rintro c d hc hd apart rfl
      have pos := (inv.live c hc).pos
      unfold Separate at apart
      omega
    refine ⟨mb', done, arrays, ?_, ?_, inv.separate.sublist List.erase_sublist, ?_⟩
    · intro c hc
      obtain ⟨other, hc⟩ := nodup.mem_erase_iff.mp hc
      exact others c (inv.live c hc) (inv.separate.forall member hc other.symm)
    · intro c hc
      exact others c (inv.fixed c hc) (inv.apart b member c hc)
    · intro c hc
      exact inv.apart c (List.mem_of_mem_erase hc)
  · exact .inr failed

end

/-- An allocation asks for at least one byte. -/
def BootCall.Proper : BootCall → Prop
  | .alloc call => 0 < call.size
  | .free _ => True

theorem BootInv.step {env : Env} (slab : env.slabIsAvailable = false) (kzalloc : Nat → Nat) {pinned : List (Nat × Nat)}
    {s : Session} (inv : BootInv pinned s) (call : BootCall) (proper : call.Proper) :
    ∃ s', bootStep env kzalloc s call = .ok s' ∧ BootInv pinned s' := by
  cases call with
  | alloc call =>
      rcases inv.alloc slab kzalloc call proper with ⟨mb', a, done, found, -, inv'⟩ | failed
      · refine ⟨_, ?_, inv'⟩
        rw [bootStep, done, ok_bind]
        simp only [if_neg found]
        rfl
      · refine ⟨s, ?_, inv⟩
        rw [bootStep, failed, ok_bind]
        rfl
  | free b =>
      by_cases member : b ∈ s.live
      · rcases inv.free slab member with ⟨mb', done, inv'⟩ | ⟨ret, done, failed⟩
        · refine ⟨_, ?_, inv'⟩
          rw [bootStep, if_pos member, done, ok_bind]
          rfl
        · refine ⟨s, ?_, inv⟩
          rw [bootStep, if_pos member, done, ok_bind]
          simp only [if_neg failed]
          rfl
      · refine ⟨s, ?_, inv⟩
        rw [bootStep, if_neg member]
        rfl

/-- After every run of allocations and frees the next allocation hands out memory that nobody uses, or fails and changes
    nothing. -/
theorem boot_allocations_separate (kzalloc : Nat → Nat) {pinned : List (Nat × Nat)} {s : Session} (inv : BootInv pinned s)
    (calls : List (Env × BootCall)) (early : ∀ c ∈ calls, c.1.slabIsAvailable = false ∧ c.2.Proper) :
    ∃ s', bootRun kzalloc s calls = .ok s' ∧ BootInv pinned s' ∧
      ∀ env : Env, env.slabIsAvailable = false →
        (∀ call : AllocCall, 0 < call.size →
          (∃ mb' a, call.run env kzalloc s'.mb = .ok (mb', a) ∧ a ≠ 0 ∧ Handed env pinned s' mb' call a) ∨
            call.run env kzalloc s'.mb = .ok (s'.mb, 0)) ∧
        ∀ b ∈ s'.live, (∃ mb', memblockFree env s'.mb b.1 b.2 = .ok (mb', 0)) ∨
          ∃ ret, memblockFree env s'.mb b.1 b.2 = .ok (s'.mb, ret) ∧ ret ≠ 0 := by
  have run : ∃ s', bootRun kzalloc s calls = .ok s' ∧ BootInv pinned s' := by
    induction calls generalizing s with
    | nil => exact ⟨s, rfl, inv⟩
    | cons c calls ih =>
        obtain ⟨env, call⟩ := c
        obtain ⟨slab, proper⟩ := early _ List.mem_cons_self
        obtain ⟨s1, done, inv1⟩ := inv.step slab kzalloc call proper
        obtain ⟨s', rest, inv'⟩ := ih inv1 fun c member => early c (List.mem_cons_of_mem _ member)
        refine ⟨s', ?_, inv'⟩
        rw [bootRun, done, ok_bind]
        exact rest
  obtain ⟨s', done, inv'⟩ := run
  refine ⟨s', done, inv', ?_⟩
  intro env slab
  constructor
  · intro call pos
    rcases inv'.alloc slab kzalloc call pos with ⟨mb', a, done, found, handed, -⟩ | failed
    · exact .inl ⟨mb', a, done, found, handed⟩
    · exact .inr failed
  · intro b member
    rcases inv'.free slab member with ⟨mb', done, -⟩ | failed
    · exact .inl ⟨mb', done⟩
    · exact .inr failed

/-! ## Four pages -/

/-- The calls can begin with the static arrays. -/
theorem bootInv_static {mb : State} (inv : Inv mb)
    (static : ∀ ty, (mb.type ty).storage = (initMemblockRegions, none, false)) : BootInv [] ⟨mb, []⟩ := by
  have fields (ty : TypeId) : (mb.type ty).max = initMemblockRegions ∧ (mb.type ty).array = none ∧
      (mb.type ty).inSlab = false := by
    have same := static ty
    simp only [MemblockType.storage, Prod.mk.injEq] at same
    exact same
  have held (ty : TypeId) : heldBlock (mb.type ty) = none := by
    rw [heldBlock, (fields ty).2.1, (fields ty).2.2]
  refine ⟨⟨⟨inv, ?_⟩, ?_, ?_⟩, by simp, by simp, .nil, by simp⟩
  · intro ty
    exact ⟨⟨7, le_rfl, by decide, (fields ty).1⟩, fun _ => ⟨(fields ty).1, (fields ty).2.2⟩⟩
  · intro m r hm
    rw [held] at hm
    cases hm
  · intro ty pa array
    rw [(fields ty).2.1] at array
    cases array

theorem bootInv_fourPages : BootInv [] ⟨State.fourPages, []⟩ :=
  bootInv_static State.fourPages_inv fun ty => by cases ty <;> rfl

theorem fourPages_allocations : ∃ s', bootRun (fun _ => 0) ⟨State.fourPages, []⟩
    [(Env.early, .alloc (.phys 0x1000 0x1000)), (Env.early, .free (0x7000, 0x1000)),
      (Env.early, .alloc (.internal 0x800 0 0 0))] = .ok s' ∧ BootInv [] s' := by
  obtain ⟨s', done, inv, -⟩ := boot_allocations_separate (fun _ => 0) bootInv_fourPages
    [(Env.early, .alloc (.phys 0x1000 0x1000)), (Env.early, .free (0x7000, 0x1000)),
      (Env.early, .alloc (.internal 0x800 0 0 0))] (by
        intro c member
        simp only [List.mem_cons, List.not_mem_nil, or_false] at member
        rcases member with rfl | rfl | rfl
        · exact ⟨rfl, (by decide : 0 < (AllocCall.phys 0x1000 0x1000).size)⟩
        · exact ⟨rfl, trivial⟩
        · exact ⟨rfl, (by decide : 0 < (AllocCall.internal 0x800 0 0 0).size)⟩)
  exact ⟨s', done, inv⟩

/-- Four pages of memory that is not mapped. -/
def State.fourUnmapped : State :=
  { State.init with
    memory := { MemblockType.init with regions := [⟨0x4000, 0x4000, Flags.nomap⟩], totalSize := 0x4000 } }

theorem bootInv_fourUnmapped : BootInv [] ⟨State.fourUnmapped, []⟩ := by
  refine bootInv_static ?_ fun ty => by cases ty <;> rfl
  intro ty
  cases ty with
  | memory => exact ⟨by decide, by decide, by decide, .inl (by decide), by unfold Bounded; decide, by decide⟩
  | reserved => exact State.fourPages_inv .reserved

/-- The flags can ask for memory that is not mapped, and a lower bound can be passed below. -/
theorem allocations_beyond_wishes :
    (BootInv [] ⟨State.fourUnmapped, []⟩ ∧
      ∃ mb', (AllocCall.range 0x1000 0x1000 0 0 Flags.nomap).run Env.early (fun _ => 0) State.fourUnmapped =
        .ok (mb', 0x7000) ∧ State.fourUnmapped.map .memory 0x7000 = some Flags.nomap) ∧
    (BootInv [] ⟨State.fourPages, []⟩ ∧
      ∃ mb', (AllocCall.internal 0x1000 0x1000 0x8000 0).run Env.early (fun _ => 0) State.fourPages =
        .ok (mb', 0x7000)) := by
  have unmapped : (match (AllocCall.range 0x1000 0x1000 0 0 Flags.nomap).run Env.early (fun _ => 0) State.fourUnmapped with
      | .ok (_, a) => decide (a = 0x7000)
      | .error _ => false) = true := by decide +kernel
  have below : (match (AllocCall.internal 0x1000 0x1000 0x8000 0).run Env.early (fun _ => 0) State.fourPages with
      | .ok (_, a) => decide (a = 0x7000)
      | .error _ => false) = true := by decide +kernel
  refine ⟨⟨bootInv_fourUnmapped, ?_⟩, bootInv_fourPages, ?_⟩
  · split at unmapped
    · rename_i mb' a done
      rw [of_decide_eq_true unmapped] at done
      exact ⟨mb', done, by decide⟩
    · cases unmapped
  · split at below
    · rename_i mb' a done
      rw [of_decide_eq_true below] at done
      exact ⟨mb', done⟩
    · cases below

end Miracle.Memblock
