import Miracle.Memblock.Relocation
import Miracle.Memblock.Attributes

/-! # Limiting memory

`memblock_enforce_memory_limit` and `memblock_mem_limit_remove_map` turn a number of bytes
into an address and cut there.  `memblock_cap_memory_range` keeps a range; its memory side
works on the capped size, its reserved side on `base + size` as it is.
-/

namespace Miracle.Memblock

open Extent

/-- Both arrays have room for the two regions that an isolation can create. -/
def RoomToIsolate (mb : State) : Prop := ∀ ty, (mb.type ty).cnt + 2 ≤ (mb.type ty).max

theorem map_above {mb : State} (inv : Inv mb) (ty : TypeId) {a : Nat} (above : physAddrMax ≤ a) :
    mb.map ty a = none := by
  obtain ⟨l, contents⟩ := (inv ty).contents
  rw [State.map, contents.lookup_eq]
  exact contents.sound.lookup_above above

/-! ## The cap -/

/-- The reserved side: what lies below the base and from `base + size` on is removed. -/
theorem capReserved_fits (env : Env) {mb : State} (inv : Inv mb) (room : mb.reserved.cnt + 2 ≤ mb.reserved.max)
    (base end_ : Nat) :
    ∃ mid mb', memblockRemoveRange env mb .reserved 0 base = .ok (mid, 0) ∧
      memblockRemoveRange env mid .reserved end_ physAddrMax = .ok (mb', 0) ∧ mb'.map .memory = mb.map .memory ∧
      mb'.map .reserved = withoutRange end_ physAddrMax (withoutRange 0 base (mb.map .reserved)) := by
  obtain ⟨mid, first, edit, inv', cnt⟩ := removeRangeWith_fits (memblockDoubleArray env nesting) inv .reserved room 0 base
  have max := edit.max_eq .reserved
  have room' : (mid.type .reserved).cnt + 2 ≤ (mid.type .reserved).max := by
    simp only [if_true, Nat.add_zero] at cnt
    rw [max]
    exact (Nat.add_le_add_right cnt 2).trans room
  obtain ⟨mb', second, edit', -, -⟩ :=
    removeRangeWith_fits (memblockDoubleArray env nesting) inv' .reserved room' end_ physAddrMax
  refine ⟨mid, mb', first, second, ?_, ?_⟩
  · rw [edit'.map_of_ne (by decide), edit.map_of_ne (by decide)]
  · rw [edit'.map_eq, edit.map_eq]

/-- The memory side, with what follows it. -/
theorem capMemoryRange_fits (env : Env) {mb : State} (inv : Inv mb) (room : RoomToIsolate mb) {base size : Nat}
    (nonzero : size ≠ 0) :
    ∃ mb', memblockCapMemoryRange env mb base size = .ok mb' ∧
      mb'.map .memory = capRange base size (mb.map .memory) ∧
      mb'.map .reserved =
        withoutRange (u64 (base + size)) physAddrMax (withoutRange 0 base (mb.map .reserved)) := by
  -- an edit of memory leaves the reserved side its room
  have finish {f : AddrMap → AddrMap} {mid : State} (edit : Edit .memory f mb mid) (inv' : Inv mid)
      (same : f (mb.map .memory) = capRange base size (mb.map .memory)) :
      ∃ last mb', memblockRemoveRange env mid .reserved 0 base = .ok (last, 0) ∧
        memblockRemoveRange env last .reserved (u64 (base + size)) physAddrMax = .ok (mb', 0) ∧
        mb'.map .memory = capRange base size (mb.map .memory) ∧
        mb'.map .reserved = withoutRange (u64 (base + size)) physAddrMax (withoutRange 0 base (mb.map .reserved)) := by
    obtain ⟨t, rfl, -⟩ := edit.frame
    obtain ⟨last, mb', first, second, memory, reserved⟩ :=
      capReserved_fits env inv' (room .reserved) base (u64 (base + size))
    refine ⟨last, mb', first, second, memory.trans (edit.map_eq.trans same), ?_⟩
    rw [reserved, edit.map_of_ne (by decide)]
  unfold memblockCapMemoryRange memblockIsolateRange
  rw [if_neg nonzero, isolateRangeWith_eq]
  by_cases empty : memblockCapSize base size = 0
  · obtain ⟨edit, inv'⟩ := removeMapped_memory inv
    obtain ⟨last, mb', first, second, memory, reserved⟩ := finish edit inv' (by
      funext a
      simp only [capRange, if_neg (not_inRange_of_empty empty a)])
    refine ⟨mb', ?_, memory, reserved⟩
    simp only [if_pos empty, ok_bind, ne_eq, not_true_eq_false, if_false, Nat.sub_zero]
    change (memblockRemoveRange env { mb with memory := removeMapped mb.memory 0 mb.memory.cnt } .reserved 0 base >>= _) = _
    simp only [first, ok_bind, second, pure_eq_ok]
  · obtain ⟨iso, startRgn, endRgn, l, cut, done⟩ := isolateCut_ok empty (inv .memory) (room .memory)
    obtain ⟨edit, inv'⟩ := cut.capped inv
    obtain ⟨last, mb', first, second, memory, reserved⟩ := finish edit inv' rfl
    refine ⟨mb', ?_, memory, reserved⟩
    rw [if_neg empty, growRounds, growWhile_fits (room .memory), ok_bind]
    simp only [if_true, done, ok_bind, ne_eq, not_true_eq_false, if_false, first, second, pure_eq_ok]

/-- What the cap is for: memory keeps the range and everything that is not mapped, and the
    reservations of the range stay. -/
structure Capped (base size : Nat) (mb mb' : State) : Prop where
  memory : ∀ a, mb'.map .memory a ≠ none ↔
    mb.map .memory a ≠ none ∧ (InRange base size a ∨ ∃ flags, mb.map .memory a = some flags ∧ flags &&& Flags.nomap ≠ 0)
  kept : ∀ a, mb'.map .memory a ≠ none → mb'.map .memory a = mb.map .memory a
  reserved : ∀ a, mb'.map .reserved a = if InRange base size a then mb.map .reserved a else none

theorem capRange_ne_none (base size : Nat) (m : AddrMap) (a : Nat) :
    (capRange base size m a ≠ none ↔
      m a ≠ none ∧ (InRange base size a ∨ ∃ flags, m a = some flags ∧ flags &&& Flags.nomap ≠ 0)) ∧
      (capRange base size m a ≠ none → capRange base size m a = m a) := by
  unfold capRange
  cases found : m a with
  | none => simp
  | some flags =>
      by_cases inside : InRange base size a
      · simp [inside]
      · by_cases nomap : flags &&& Flags.nomap = 0 <;> simp [inside, Option.filter, nomap]

theorem inRange_top (cut a : Nat) : InRange cut physAddrMax a ↔ cut ≤ a ∧ a < physAddrMax := by
  unfold InRange memblockCapSize
  omega

/-- The addresses outside `[base, end_)` go. -/
theorem withoutRange_both (base end_ : Nat) (m : AddrMap) (a : Nat) :
    withoutRange end_ physAddrMax (withoutRange 0 base m) a =
      if a < min base physAddrMax ∨ (end_ ≤ a ∧ a < physAddrMax) then none else m a := by
  have below : InRange 0 base a ↔ a < min base physAddrMax := by
    simp only [InRange, memblockCapSize, Nat.zero_le, true_and, Nat.zero_add, Nat.sub_zero]
  have above := inRange_top end_ a
  unfold withoutRange
  by_cases low : a < min base physAddrMax <;> by_cases high : end_ ≤ a ∧ a < physAddrMax <;> simp [below, above, low, high]

/-- Where `base + size` is an address, the two removals leave the range. -/
theorem withoutRange_sides {base size : Nat} (fits : base + size < 2 ^ 64) {m : AddrMap}
    (top : ∀ a, physAddrMax ≤ a → m a = none) (a : Nat) :
    withoutRange (u64 (base + size)) physAddrMax (withoutRange 0 base m) a = if InRange base size a then m a else none := by
  have range : InRange base size a ↔ base ≤ a ∧ a < base + size := by
    unfold InRange memblockCapSize
    simp only [physAddrMax]
    omega
  rw [u64_of_lt fits, withoutRange_both]
  by_cases above : physAddrMax ≤ a
  · simp [top a above]
  · by_cases inside : base ≤ a ∧ a < base + size
    · rw [if_neg (by omega), if_pos (range.mpr inside)]
    · rw [if_pos (by omega), if_neg (fun h => inside (range.mp h))]

/-- Where `base + size` wraps, no reservation is left. -/
theorem withoutRange_wrapped {base size : Nat} (word : size < 2 ^ 64) (wraps : ¬ base + size < 2 ^ 64)
    (low : base < 2 ^ 64) {m : AddrMap} (top : ∀ a, physAddrMax ≤ a → m a = none) (a : Nat) :
    withoutRange (u64 (base + size)) physAddrMax (withoutRange 0 base m) a = none := by
  have end_ : u64 (base + size) < base := by
    unfold u64
    omega
  rw [withoutRange_both]
  by_cases above : physAddrMax ≤ a
  · simp [top a above]
  · rw [if_pos (by omega)]

/-- The cap does what it is for exactly when `base + size` does not wrap or the range has no
    reservations to lose. -/
theorem capped_iff (env : Env) {mb : State} (inv : Inv mb) (room : RoomToIsolate mb) {base size : Nat}
    (low : base < 2 ^ 64) (word : size < 2 ^ 64) (pos : 0 < size) :
    (∃ mb', memblockCapMemoryRange env mb base size = .ok mb' ∧ Capped base size mb mb') ↔
      base + size < 2 ^ 64 ∨ ∀ a, InRange base size a → mb.map .reserved a = none := by
  obtain ⟨mb', done, memory, reserved⟩ := @capMemoryRange_fits env mb inv room base size pos.ne'
  have top (a : Nat) (above : physAddrMax ≤ a) : mb.map .reserved a = none := map_above inv .reserved above
  constructor
  · rintro ⟨other, done', capped⟩
    obtain rfl := Except.ok.inj (done.symm.trans done')
    by_cases fits : base + size < 2 ^ 64
    · exact .inl fits
    · right
      intro a inside
      have lost := withoutRange_wrapped word fits low top a
      have kept := capped.reserved a
      rw [if_pos inside, reserved, lost] at kept
      exact kept.symm
  · intro safe
    refine ⟨mb', done, ⟨fun a => ?_, fun a => ?_, fun a => ?_⟩⟩
    · rw [memory]
      exact (capRange_ne_none base size _ a).1
    · rw [memory]
      exact (capRange_ne_none base size _ a).2
    · rw [reserved]
      by_cases fits : base + size < 2 ^ 64
      · exact withoutRange_sides fits top a
      · rw [withoutRange_wrapped word fits low top a]
        split
        · rename_i inside
          exact (safe.resolve_left fits a inside).symm
        · rfl

/-- Four pages of memory of which one is reserved. -/
def State.reservedPage : State :=
  { State.fourPages with
    reserved := { MemblockType.init with regions := [⟨0x5000, 0x1000, Flags.none⟩], totalSize := 0x1000 } }

theorem State.reservedPage_inv : Inv State.reservedPage := by
  intro ty
  cases ty with
  | memory => exact State.fourPages_inv .memory
  | reserved =>
      refine ⟨by decide, by decide, by decide, .inl (by decide), ?_, by decide⟩
      unfold Bounded
      decide

theorem State.reservedPage_room : RoomToIsolate State.reservedPage := by
  intro ty
  cases ty <;> decide

theorem reservedPage_capped :
    ∃ mb', memblockCapMemoryRange Env.early State.reservedPage 0x4000 0x2000 = .ok mb' ∧
      Capped 0x4000 0x2000 State.reservedPage mb' :=
  (capped_iff Env.early State.reservedPage_inv State.reservedPage_room (by decide) (by decide) (by decide)).mpr
    (.inl (by decide))

/-- A size that reaches past the last address. -/
theorem reservedPage_lost :
    ¬ ∃ mb', memblockCapMemoryRange Env.early State.reservedPage 0x4000 (2 ^ 64 - 1) = .ok mb' ∧
      Capped 0x4000 (2 ^ 64 - 1) State.reservedPage mb' := by
  rintro ⟨mb', done, capped⟩
  obtain ⟨other, done', -, reserved⟩ := @capMemoryRange_fits Env.early State.reservedPage State.reservedPage_inv
    State.reservedPage_room 0x4000 (2 ^ 64 - 1) (by decide)
  obtain rfl := Except.ok.inj (done.symm.trans done')
  have kept := capped.reserved 0x5000
  rw [reserved] at kept
  exact absurd kept (by decide)

/-! ## The limit as an address -/

/-- Bytes of the map `m`. -/
noncomputable def bytes (m : AddrMap) : Nat := {a | m a ≠ none}.ncard

theorem findMaxAddrLoop_ge {l : List Region} {limit low : Nat} (after : ∀ r ∈ l, low ≤ r.base) (bounded : Bounded l)
    (top : low ≤ physAddrMax) : low ≤ findMaxAddrLoop l limit := by
  induction l generalizing limit with
  | nil => exact top
  | cons r l ih =>
      obtain ⟨high, bounded'⟩ := Bounded.cons_iff.mp bounded
      have first := after r (by simp)
      rw [findMaxAddrLoop]
      split
      · rename_i fits
        have end_ : u64 (r.base + limit) = r.base + limit := u64_of_lt (by
          simp only [stop, physAddrMax] at high
          omega)
        omega
      · exact ih (fun x member => after x (by simp [member])) bounded'

/-- The address has `limit` bytes of the regions below it, or all there are. -/
theorem total_below_maxAddr {l : List Region} (h : Sound l) {limit : Nat} (pos : 0 < limit) :
    total (clip 0 (findMaxAddrLoop l limit) l) = min limit (total l) := by
  obtain ⟨ordered, bounded⟩ := h
  induction l generalizing limit with
  | nil => simp
  | cons r l ih =>
      obtain ⟨size, after, ordered'⟩ := Ordered.cons_iff.mp ordered
      obtain ⟨high, bounded'⟩ := Bounded.cons_iff.mp bounded
      rw [findMaxAddrLoop, total_cons]
      split
      · -- the limit is reached in this region
        rename_i fits
        have end_ : u64 (r.base + limit) = r.base + limit := u64_of_lt (by
          simp only [stop, physAddrMax] at high
          omega)
        have rest : clip 0 (r.base + limit) l = [] := by
          refine clip_of_outside fun x member => .inr ?_
          have next := after x member
          simp only [stop] at next
          omega
        rw [end_, clip_cons, rest, clip1_lower (Nat.zero_le _) (by omega) (by simp only [stop]; omega)]
        simp only [Option.toList_some, List.append_nil, total_cons, total_nil, Nat.add_zero]
        omega
      · rename_i more
        have below : r.stop ≤ findMaxAddrLoop l (limit - r.size) := findMaxAddrLoop_ge after bounded' high
        rw [clip_cons, clip1_of_within size (Nat.zero_le _) below, Option.toList_some, List.singleton_append, total_cons,
          ih (by omega) ordered' bounded']
        omega

theorem findMaxAddr_contents {mb : State} {l : List Region} (contents : Contents mb.memory l) {limit : Nat}
    (pos : 0 < limit) : findMaxAddr mb limit = findMaxAddrLoop l limit := by
  rw [findMaxAddr, contents.regions_eq]
  unfold orDummy
  split
  · rename_i empty
    have past : ¬ limit ≤ Region.dummy.size := Nat.not_le.mpr pos
    rw [empty]
    exact if_neg past
  · rfl

theorem bytes_lookup {l : List Region} (ordered : Ordered l) : bytes (lookup l) = total l := by
  have finite (m : List Region) : {a | lookup m a ≠ none}.Finite := by
    induction m with
    | nil => simp
    | cons r m ih =>
        refine ((Set.finite_Ico r.base r.stop).union ih).subset fun a present => ?_
        by_cases inside : r.Contains a
        · exact .inl inside
        · right
          rwa [Set.mem_ofPred_eq, lookup_cons, if_neg inside] at present
  induction l with
  | nil => simp [bytes]
  | cons r l ih =>
      obtain ⟨size, after, ordered'⟩ := Ordered.cons_iff.mp ordered
      have split : {a | lookup (r :: l) a ≠ none} = Set.Ico r.base r.stop ∪ {a | lookup l a ≠ none} := by
        ext a
        by_cases inside : r.Contains a
        · simp only [Set.mem_ofPred_eq, lookup_cons, if_pos inside, Set.mem_union]
          exact iff_of_true (Option.some_ne_none _) (.inl inside)
        · simp only [Set.mem_ofPred_eq, lookup_cons, if_neg inside, Set.mem_union]
          exact (or_iff_right fun h => inside h).symm
      have apart : Disjoint (Set.Ico r.base r.stop) {a | lookup l a ≠ none} := by
        rw [Set.disjoint_left]
        intro a first second
        refine second (lookup_eq_none_iff.mpr fun x member inside => ?_)
        have order := after x member
        have low := inside.1
        have high := first.2
        omega
      rw [bytes, split, Set.ncard_union_eq apart (Set.finite_Ico _ _) (finite l), total_cons, ← ih ordered']
      congr 1
      rw [← Finset.coe_Ico, Set.ncard_coe_finset, Nat.card_Ico, stop, Nat.add_sub_cancel_left]

/-- The bytes of memory below an address. -/
def below (cut : Nat) (m : AddrMap) : AddrMap := fun a => if a < cut then m a else none

theorem bytes_below_maxAddr {mb : State} (inv : Inv mb) {limit : Nat} (pos : 0 < limit) :
    bytes (below (findMaxAddr mb limit) (mb.map .memory)) = min limit (bytes (mb.map .memory)) := by
  obtain ⟨l, contents⟩ := (inv .memory).contents
  have same : mb.map .memory = lookup l := funext contents.lookup_eq
  have clipped : below (findMaxAddr mb limit) (lookup l) = lookup (clip 0 (findMaxAddr mb limit) l) := by
    funext a
    simp only [below, lookup_clip, Nat.zero_le, true_and]
  rw [same, clipped, bytes_lookup (contents.sound.ordered.clip _ _), bytes_lookup contents.sound.ordered,
    findMaxAddr_contents contents pos]
  exact total_below_maxAddr contents.sound pos

theorem below_top {mb : State} (inv : Inv mb) (ty : TypeId) : below physAddrMax (mb.map ty) = mb.map ty := by
  funext a
  unfold below
  split
  · rfl
  · rename_i above
    exact (map_above inv ty (Nat.not_lt.mp above)).symm

theorem withoutRange_top {mb : State} (inv : Inv mb) (ty : TypeId) (cut : Nat) :
    withoutRange cut physAddrMax (mb.map ty) = below cut (mb.map ty) := by
  funext a
  unfold withoutRange below
  by_cases above : physAddrMax ≤ a
  · simp [map_above inv ty above]
  · by_cases low : a < cut
    · rw [if_neg (fun h => absurd ((inRange_top cut a).mp h).1 (Nat.not_le.mpr low)), if_pos low]
    · rw [if_pos ((inRange_top cut a).mpr ⟨Nat.not_lt.mp low, Nat.not_le.mp above⟩), if_neg low]

theorem enforceMemoryLimit_fits (env : Env) {mb : State} (inv : Inv mb) (room : RoomToIsolate mb) {limit : Nat}
    (pos : 0 < limit) :
    ∃ mb', memblockEnforceMemoryLimit env mb limit = .ok mb' ∧
      ∀ ty, mb'.map ty = below (findMaxAddr mb limit) (mb.map ty) := by
  unfold memblockEnforceMemoryLimit
  rw [if_neg pos.ne']
  simp only
  split
  · rename_i past
    exact ⟨mb, rfl, fun ty => by rw [past, below_top inv]⟩
  · obtain ⟨mid, first, edit, inv', -⟩ := removeRangeWith_fits (memblockDoubleArray env nesting) inv .memory
      (room .memory) (findMaxAddr mb limit) physAddrMax
    have same := edit.type_of_ne (show TypeId.reserved ≠ .memory by decide)
    obtain ⟨mb', second, edit', -, -⟩ := removeRangeWith_fits (memblockDoubleArray env nesting) inv' .reserved
      (by rw [same]; exact room .reserved) (findMaxAddr mb limit) physAddrMax
    refine ⟨mb', ?_, fun ty => ?_⟩
    · unfold memblockRemoveRange
      simp only [first, ok_bind, second, pure_eq_ok]
    · cases ty with
      | memory => rw [edit'.map_of_ne (by decide), edit.map_eq, withoutRange_top inv]
      | reserved => rw [edit'.map_eq, edit.map_of_ne (by decide), withoutRange_top inv]

/-- A limit that is reached is reached above a region's base. -/
theorem findMaxAddr_ne_zero {mb : State} (inv : Inv mb) {limit : Nat} (pos : 0 < limit)
    (ends : ¬ findMaxAddr mb limit = physAddrMax) : findMaxAddr mb limit ≠ 0 := by
  intro zero
  obtain ⟨l, contents⟩ := (inv .memory).contents
  rw [findMaxAddr_contents contents pos] at zero ends
  have sum := total_below_maxAddr contents.sound pos
  rw [zero, clip_of_outside (fun _ _ => .inr (Nat.zero_le _)), total_nil] at sum
  cases l with
  | nil => exact ends rfl
  | cons r l =>
      have size := contents.sound.ordered.pos r (by simp)
      rw [total_cons] at sum
      omega

theorem findMaxAddr_le (mb : State) (limit : Nat) : findMaxAddr mb limit ≤ physAddrMax := by
  unfold findMaxAddr
  induction mb.memory.regions generalizing limit with
  | nil => exact le_rfl
  | cons r l ih =>
      unfold findMaxAddrLoop
      split
      · exact Nat.le_pred_of_lt (u64_lt _)
      · exact ih _

theorem memLimitRemoveMap_fits (env : Env) {mb : State} (inv : Inv mb) (room : RoomToIsolate mb) {limit : Nat}
    (pos : 0 < limit) :
    ∃ mb', memblockMemLimitRemoveMap env mb limit = .ok mb' ∧
      mb'.map .memory = capRange 0 (findMaxAddr mb limit) (mb.map .memory) := by
  unfold memblockMemLimitRemoveMap
  rw [if_neg pos.ne']
  simp only
  split
  · rename_i past
    refine ⟨mb, rfl, ?_⟩
    funext a
    rw [past, capRange]
    split
    · rfl
    · rename_i outside
      have above : physAddrMax ≤ a := by
        unfold InRange memblockCapSize at outside
        omega
      rw [map_above inv .memory above]
      rfl
  · have nonzero := findMaxAddr_ne_zero inv pos ‹_›
    obtain ⟨mb', done, memory, -⟩ := @capMemoryRange_fits env mb inv room 0 (findMaxAddr mb limit) nonzero
    exact ⟨mb', done, memory⟩

theorem capRange_zero {mb : State} (inv : Inv mb) (cut a : Nat) (flags : Flags) :
    capRange 0 cut (mb.map .memory) a = some flags ↔
      mb.map .memory a = some flags ∧ (a < cut ∨ flags &&& Flags.nomap ≠ 0) := by
  by_cases above : physAddrMax ≤ a
  · simp [capRange, map_above inv .memory above]
  · have range : InRange 0 cut a ↔ a < cut := by
      unfold InRange memblockCapSize
      omega
    unfold capRange
    by_cases low : a < cut
    · simp [range.mpr low, low]
    · rw [if_neg (fun h => low (range.mp h)), Option.filter_eq_some_iff]
      simp [low]

/-- Both limits cut at one address, below which lie `limit` bytes of memory or all of it.  The
    first keeps what is below; the second keeps also the memory that is not mapped. -/
theorem memory_limit_cuts (env : Env) {mb : State} (inv : Inv mb) (room : RoomToIsolate mb) {limit : Nat}
    (pos : 0 < limit) :
    ∃ cut, bytes (below cut (mb.map .memory)) = min limit (bytes (mb.map .memory)) ∧
      (∃ mb', memblockEnforceMemoryLimit env mb limit = .ok mb' ∧
        mb'.map .memory = below cut (mb.map .memory) ∧ mb'.map .reserved = below cut (mb.map .reserved)) ∧
      ∃ mb', memblockMemLimitRemoveMap env mb limit = .ok mb' ∧
        ∀ a flags, mb'.map .memory a = some flags ↔
          mb.map .memory a = some flags ∧ (a < cut ∨ flags &&& Flags.nomap ≠ 0) := by
  refine ⟨findMaxAddr mb limit, bytes_below_maxAddr inv pos, ?_, ?_⟩
  · obtain ⟨mb', done, maps⟩ := enforceMemoryLimit_fits env inv room pos
    exact ⟨mb', done, maps .memory, maps .reserved⟩
  · obtain ⟨mb', done, memory⟩ := memLimitRemoveMap_fits env inv room pos
    refine ⟨mb', done, fun a flags => ?_⟩
    rw [memory]
    exact capRange_zero inv _ a flags

theorem reservedPage_limited :
    ∃ cut, bytes (below cut (State.reservedPage.map .memory)) = min 0x1000 (bytes (State.reservedPage.map .memory)) ∧
      ∃ mb', memblockEnforceMemoryLimit Env.early State.reservedPage 0x1000 = .ok mb' ∧
        mb'.map .reserved = below cut (State.reservedPage.map .reserved) := by
  obtain ⟨cut, count, ⟨mb', done, -, reserved⟩, -⟩ := @memory_limit_cuts Env.early State.reservedPage
    State.reservedPage_inv State.reservedPage_room 0x1000 (by decide)
  exact ⟨cut, count, mb', done, reserved⟩

/-! ## The room that a cut leaves

Cutting memory off at the top needs two free places in the array for the moment and leaves
no more regions than there were.  What is cut out can be added again with one more place.
The end of the module has the two ends of memory.
-/

open Extent

/-- The places that an array needs to take the range in. -/
def demand (mb : State) (ty : TypeId) (base size : Nat) : Nat :=
  (mb.type ty).cnt + missing mb ty base size

theorem length_cutAt_low {l : List Region} (h : Sound l) {cut : Nat} :
    (cutAt 0 cut l).length ≤ l.length + 1 := by
  have none : clip 0 0 l = [] := clip_of_outside (fun _ _ => .inr (Nat.zero_le _))
  have parts := length_clip_outside h.ordered (le_refl cut) physAddrMax
  rw [cutAt, none, List.nil_append, List.length_append]
  exact parts

theorem clip_top {l : List Region} (h : Sound l) : clip physAddrMax physAddrMax l = [] :=
  clip_of_outside (fun r member => .inl (h.bounded r member))

theorem length_cutAt_high {l : List Region} (h : Sound l) {cut : Nat} :
    (cutAt cut physAddrMax l).length ≤ l.length + 1 := by
  have parts := length_clip_outside h.ordered (le_refl cut) physAddrMax
  rw [cutAt, clip_top h, List.append_nil, List.length_append]
  exact parts

/-- Leaving out parts of an array that was cut at one address costs at most one place. -/
theorem demand_of_sublist {mb : State} (mb' : State) {ty : TypeId} {l l' : List Region} {lo hi : Nat}
    (contents : Contents (mb.type ty) l) (contents' : Contents (mb'.type ty) l')
    (sub : l'.Sublist (cutAt lo hi l)) (le : lo ≤ hi) (few : (cutAt lo hi l).length ≤ l.length + 1)
    (base size : Nat) : demand mb' ty base size ≤ demand mb ty base size + 1 := by
  have sound := contents.sound
  have cut := (sound.cutAt le).ordered
  have left := pieces_of_sublist cut sub (base + memblockCapSize base size) base
  have same : pieces (base + memblockCapSize base size) (cutAt lo hi l) base =
      pieces (base + memblockCapSize base size) l base :=
    pieces_congr cut sound.ordered (fun a => by rw [Covered, Covered, lookup_cutAt sound le])
  have old := contents.cnt_eq
  have new := contents'.cnt_eq
  have one := pieces_le (base + memblockCapSize base size) l' base
  rw [demand, demand, missing_eq contents, missing_eq contents']
  omega

/-- The state after something has been taken out of the array of `ty`. -/
structure TakenOut (ty : TypeId) (f : AddrMap → AddrMap) (mb mb' : State) : Prop where
  inv : Inv mb'
  edit : Edit ty f mb mb'
  cnt_le : (mb'.type ty).cnt ≤ (mb.type ty).cnt
  demand_le : ∀ base size, demand mb' ty base size ≤ demand mb ty base size + 1

theorem outside_top {l : List Region} (h : Sound l) (cut : Nat) : outside cut physAddrMax l = clip 0 cut l := by
  rw [outside, clip_top h, List.append_nil]

/-- A removal up to the top of the address space. -/
theorem removeTop_fits (double : Doubling) {mb : State} (inv : Inv mb) (ty : TypeId)
    (fits : (mb.type ty).cnt + 2 ≤ (mb.type ty).max) {base : Nat} (low : base ≤ physAddrMax) :
    ∃ mb', removeRangeWith double mb ty base physAddrMax = .ok (mb', 0) ∧
      TakenOut ty (withoutRange base physAddrMax) mb mb' := by
  have top : base + memblockCapSize base physAddrMax = physAddrMax := by
    unfold memblockCapSize
    omega
  rw [removeRangeWith, isolateRangeWith_eq]
  by_cases empty : memblockCapSize base physAddrMax = 0
  · refine ⟨mb, ?_, inv, .same (withoutRange_of_empty empty _), le_rfl, fun _ _ => Nat.le_succ _⟩
    simp [empty, removeRegions]
  · obtain ⟨iso, startRgn, endRgn, l, cut, done⟩ := isolateCut_ok empty (inv ty) fits
    rw [if_neg empty, growRounds, growWhile_fits fits, ok_bind]
    simp only [if_true, done, ok_bind]
    obtain ⟨edit, inv', -⟩ := cut.removed inv
    refine ⟨_, rfl, inv', edit, ?_, ?_⟩
    · have short : (clip 0 base l).length ≤ l.length := List.length_filterMap_le _ _
      have old := cut.contents.cnt_eq
      have new := (cut.contents.removed (Nat.le_add_right base (memblockCapSize base physAddrMax))).cnt_eq
      rw [top, outside_top cut.contents.sound] at new
      rw [cut.removed_eq, State.type_setType, top, outside_top cut.contents.sound, new]
      omega
    · have contents' := cut.contents.removed low
      rw [outside_top cut.contents.sound] at contents'
      have sub : (clip 0 base l).Sublist (cutAt base physAddrMax l) := List.sublist_append_left _ _
      refine demand_of_sublist (iso.setType ty _) cut.contents ?_ sub low
        (length_cutAt_high cut.contents.sound)
      rw [cut.removed_eq, State.type_setType, top, outside_top cut.contents.sound]
      exact contents'

/-- The cap of memory at an address: the reserved array is cut there too. -/
structure CappedAt (cut : Nat) (mb mb' : State) : Prop where
  inv : Inv mb'
  memory : mb'.map .memory = capRange 0 cut (mb.map .memory)
  max_eq : ∀ ty, (mb'.type ty).max = (mb.type ty).max
  demand_le : ∀ ty base size, demand mb' ty base size ≤ demand mb ty base size + 1

theorem demand_congr {ty' : TypeId} {mb mb' : State} (same : mb'.type ty' = mb.type ty')
    (base size : Nat) : demand mb' ty' base size = demand mb ty' base size := by
  simp only [demand, missing, same]

theorem capMemoryRange_at (env : Env) {mb : State} (inv : Inv mb) (room : RoomToIsolate mb) {cut : Nat}
    (pos : cut ≠ 0) (low : cut ≤ physAddrMax) :
    ∃ mb', memblockCapMemoryRange env mb 0 cut = .ok mb' ∧ CappedAt cut mb mb' := by
  have size : memblockCapSize 0 cut = cut := by
    unfold memblockCapSize
    omega
  have nonempty : memblockCapSize 0 cut ≠ 0 := by rwa [size]
  have word : cut < 2 ^ 64 := by
    simp only [physAddrMax] at low
    omega
  obtain ⟨iso, startRgn, endRgn, l, isolated, done⟩ := isolateCut_ok nonempty (inv .memory) (room .memory)
  obtain ⟨edit, inv'⟩ := isolated.capped inv
  -- the first removal from the reserved array has no range
  have none (mid : State) : memblockRemoveRange env mid .reserved 0 0 = .ok (mid, 0) := by
    have zero : memblockCapSize 0 0 = 0 := Nat.min_eq_left (Nat.zero_le _)
    simp [memblockRemoveRange, removeRangeWith, isolateRangeWith_eq, zero, removeRegions]
  obtain ⟨mb', removed, out⟩ := removeTop_fits (memblockDoubleArray env nesting) inv' .reserved
    (by rw [edit.type_of_ne (by decide)]; exact room .reserved) low
  refine ⟨mb', ?_, out.inv, ?_, fun ty => ?_, fun ty start len => ?_⟩
  · unfold memblockCapMemoryRange memblockIsolateRange
    rw [if_neg pos, isolateRangeWith_eq, if_neg nonempty, growRounds, growWhile_fits (room .memory), ok_bind]
    simp only [if_true, done, ok_bind, ne_eq, not_true_eq_false, if_false, none]
    simp only [Nat.zero_add, u64_of_lt word, memblockRemoveRange, removed, ok_bind, pure_eq_ok]
  · rw [out.edit.map_of_ne (by decide), edit.map_eq]
  · rw [out.edit.max_eq, edit.max_eq]
  · cases ty with
    | memory =>
        rw [demand_congr (out.edit.type_of_ne (by decide)), isolated.capped_eq]
        exact demand_of_sublist (mb.setType .memory _) isolated.contents isolated.capped_contents
          (capped_sublist _ _ l) (Nat.le_add_right _ _) (length_cutAt_low isolated.contents.sound) start len
    | reserved =>
        have same := edit.type_of_ne (by decide : TypeId.reserved ≠ .memory)
        rw [← demand_congr same]
        exact out.demand_le start len

theorem missing_of_covered {mb : State} (inv : Inv mb) {ty : TypeId} {base size : Nat}
    (covered : ∀ a, InRange base size a → (mb.map ty a).isSome = true) : missing mb ty base size = 0 := by
  obtain ⟨l, contents⟩ := (inv ty).contents
  rw [missing_eq contents, pieces_eq_card contents.sound.ordered, Finset.card_eq_zero,
    Finset.eq_empty_iff_forall_notMem]
  intro a start
  obtain ⟨range, free, -⟩ := mem_starts.mp start
  refine free ?_
  rw [Covered, ← contents.lookup_eq]
  exact covered a range

/-- The limit takes nothing in and leaves the arrays room for one range less one place. -/
theorem memLimitRemoveMap_room (env : Env) {mb : State} (inv : Inv mb) (room : RoomToIsolate mb) (limit : Nat) :
    ∃ mb', memblockMemLimitRemoveMap env mb limit = .ok mb' ∧ Inv mb' ∧
      (∀ ty, (mb'.type ty).max = (mb.type ty).max) ∧
      (∀ a, (mb'.map .memory a).isSome = true → (mb.map .memory a).isSome = true) ∧
      ∀ ty base size, demand mb' ty base size ≤ demand mb ty base size + 1 := by
  unfold memblockMemLimitRemoveMap
  by_cases zero : limit = 0
  · exact ⟨mb, if_pos zero, inv, fun _ => rfl, fun _ => id, fun _ _ _ => Nat.le_succ _⟩
  rw [if_neg zero]
  by_cases past : findMaxAddr mb limit = physAddrMax
  · exact ⟨mb, if_pos past, inv, fun _ => rfl, fun _ => id, fun _ _ _ => Nat.le_succ _⟩
  have pos := findMaxAddr_ne_zero inv (Nat.pos_of_ne_zero zero) past
  obtain ⟨mb', done, capped⟩ := capMemoryRange_at env inv room pos (findMaxAddr_le mb limit)
  refine ⟨mb', ?_, capped.inv, capped.max_eq, fun a memory => ?_, capped.demand_le⟩
  · simp only [if_neg past, done]
  · rw [Option.isSome_iff_ne_none, capped.memory] at memory
    rw [Option.isSome_iff_ne_none]
    exact (((capRange_ne_none _ _ _ a).1).mp memory).1

/-! ## The ends of memory -/

def memblockStartOfDRAM (mb : State) : Nat := (mb.memory.rgn 0).base

def memblockEndOfDRAM (mb : State) : Nat := (mb.memory.rgn (mb.memory.cnt - 1)).limit

def IsMemory (mb : State) (a : Nat) : Prop := (mb.map .memory a).isSome = true

def IsReserved (mb : State) (a : Nat) : Prop := (mb.map .reserved a).isSome = true

theorem isMemory_iff {mb : State} {l : List Region} (contents : Contents mb.memory l) (a : Nat) :
    IsMemory mb a ↔ ∃ r ∈ l, r.Contains a := by
  have same : mb.map .memory a = lookup l a := contents.lookup_eq a
  rw [IsMemory, same, Option.isSome_iff_ne_none, ne_eq, lookup_eq_none_iff]
  simp only [not_forall, not_not, exists_prop]

/-- The first region starts at the least address of memory. -/
theorem startOfDRAM_least {mb : State} (inv : Inv mb) {x : Nat} (some : IsMemory mb x) :
    IsLeast {a | IsMemory mb a} (memblockStartOfDRAM mb) := by
  obtain ⟨l, contents⟩ := (inv .memory).contents
  cases l with
  | nil =>
      obtain ⟨r, member, -⟩ := (isMemory_iff contents x).mp some
      cases member
  | cons r l =>
      have regions : mb.memory.regions = r :: l := contents.regions_eq
      have first : memblockStartOfDRAM mb = r.base := by
        simp only [memblockStartOfDRAM, MemblockType.rgn, regions, List.getD_cons_zero]
      have ordered := contents.sound.ordered
      obtain ⟨pos, after, -⟩ := Ordered.cons_iff.mp ordered
      rw [first]
      constructor
      · exact (isMemory_iff contents _).mpr ⟨r, by simp, by simp only [Contains, stop]; omega⟩
      · intro a memory
        obtain ⟨e, member, inside⟩ := (isMemory_iff contents a).mp memory
        rcases List.mem_cons.mp member with rfl | later
        · exact inside.1
        · have := after e later
          have := inside.1
          simp only [stop] at *
          omega

/-- The last region ends behind the greatest address of memory. -/
theorem endOfDRAM_greatest {mb : State} (inv : Inv mb) {x : Nat} (some : IsMemory mb x) :
    (∀ a, IsMemory mb a → a < memblockEndOfDRAM mb) ∧ 0 < memblockEndOfDRAM mb ∧
      IsMemory mb (memblockEndOfDRAM mb - 1) := by
  obtain ⟨l, contents⟩ := (inv .memory).contents
  induction l using List.reverseRecOn with
  | nil =>
      obtain ⟨r, member, -⟩ := (isMemory_iff contents x).mp some
      cases member
  | append_singleton l r _ =>
      have regions : mb.memory.regions = l ++ [r] := contents.regions_eq.trans (orDummy_of_ne (by simp))
      have ordered := contents.sound.ordered
      have pos := ordered.pos r (by simp)
      have bound := contents.sound.bounded r (by simp)
      have last : memblockEndOfDRAM mb = r.stop := by
        have at_end : mb.memory.rgn (mb.memory.cnt - 1) = r := by
          simp [MemblockType.rgn, MemblockType.cnt, regions]
        rw [memblockEndOfDRAM, at_end, limit_of_le bound]
      rw [last]
      refine ⟨fun a memory => ?_, by simp only [stop]; omega, ?_⟩
      · obtain ⟨e, member, inside⟩ := (isMemory_iff contents a).mp memory
        rcases List.mem_append.mp member with earlier | here
        · have before := (List.pairwise_append.mp ordered.apart).2.2 e earlier r (by simp)
          have := inside.2
          simp only [stop] at *
          omega
        · obtain rfl := List.mem_singleton.mp here
          exact inside.2
      · exact (isMemory_iff contents _).mpr ⟨r, by simp, by simp only [Contains, stop]; omega⟩

end Miracle.Memblock
