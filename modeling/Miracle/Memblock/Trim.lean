import Miracle.Memblock.FirstFit

/-! # Trimming memory

`memblock_trim_memory` cuts every memory region down to whole blocks and removes the regions without one.  It does not
count the bytes that it cuts off, and a start in the last block of the address space is rounded up to zero.
-/

namespace Miracle.Memblock

open Extent

/-- The loop of `memblock_trim_memory` from the region with index `i` on; none where the rounds run out. -/
def trimLoop (align : Nat) : Nat → MemblockType → Nat → Option MemblockType
  | 0, _, _ => none
  | rounds + 1, t, i =>
      if i < t.cnt then
        let r := t.rgn i
        let start := roundUp r.base align
        let end_ := roundDown r.limit align
        if start = r.base ∧ end_ = r.limit then trimLoop align rounds t (i + 1)
        else if start < end_ then
          trimLoop align rounds { t with regions := t.regions.set i ⟨start, end_ - start, r.tag⟩ } (i + 1)
        -- `r--` brings the loop back to the same index
        else trimLoop align rounds (memblockRemoveRegion t i) i
      else some t

/-- `memblock_trim_memory` -/
def memblockTrimMemory (mb : State) (align : Nat) : Option State :=
  (trimLoop align (mb.memory.cnt + 2) mb.memory 0).map fun t => { mb with memory := t }

/-- What is left of a region. -/
def trim1 (align : Nat) (r : Region) : Option Region :=
  let start := roundUp r.base align
  let end_ := roundDown r.limit align
  if start = r.base ∧ end_ = r.limit then some r
  else if start < end_ then some ⟨start, end_ - start, r.tag⟩
  else none

/-- The regions that are removed. -/
def dropped (align : Nat) (l : List Region) : List Region := l.filter fun r => (trim1 align r).isNone

theorem roundUp_zero (align : Nat) : roundUp 0 align = 0 := by
  have word : u64Sub align 1 < 2 ^ 64 := Nat.mod_lt _ (by decide)
  have ones : u64Sub 0 1 = 2 ^ 64 - 1 := by decide
  have top : (2 ^ 64 - 1) ||| u64Sub align 1 = 2 ^ 64 - 1 := by
    apply le_antisymm
    · exact Nat.le_sub_one_of_lt (Nat.or_lt_two_pow (by decide) word)
    · exact Nat.left_le_or
  rw [roundUp, ones, top]
  decide

theorem trim1_dummy (align : Nat) : trim1 align Region.dummy = some Region.dummy := by
  have limit : Region.dummy.limit = 0 := rfl
  have base : Region.dummy.base = 0 := rfl
  have down : roundDown 0 align = 0 := Nat.zero_and _
  rw [trim1, limit, base, roundUp_zero, down, if_pos ⟨rfl, rfl⟩]

section

variable {align : Nat} {t : MemblockType} {pre rest : List Region} {r : Region} {rounds : Nat}
variable (h : t.regions = pre ++ r :: rest)

include h

theorem trimLoop_cons : trimLoop align (rounds + 1) t pre.length =
    match trim1 align r with
    | some r' => trimLoop align rounds { t with regions := (pre ++ [r']) ++ rest } (pre ++ [r']).length
    | none => trimLoop align rounds
        { t with regions := orDummy (pre ++ rest), totalSize := u64Sub t.totalSize r.size } pre.length := by
  have inside : pre.length < t.cnt := by
    rw [cnt_of_append t h, List.length_cons]
    omega
  rw [trimLoop, if_pos inside, trim1]
  simp only [rgn_append_length t h]
  have length (r' : Region) : (pre ++ [r']).length = pre.length + 1 := List.length_append
  split
  · have same : { t with regions := (pre ++ [r]) ++ rest } = t := by
      rw [List.append_assoc, List.singleton_append, ← h]
    change _ = trimLoop align rounds { t with regions := (pre ++ [r]) ++ rest } (pre ++ [r]).length
    rw [same, length]
  · split
    · simp only [length, h, List.set_append_right _ _ le_rfl, Nat.sub_self, List.set_cons_zero, List.append_assoc,
        List.singleton_append]
    · have erased : (pre ++ r :: rest).eraseIdx pre.length = pre ++ rest := by
        rw [List.eraseIdx_append_of_length_le le_rfl, Nat.sub_self, List.eraseIdx_cons_zero]
      have empty (l : List Region) : (if l.length = 0 then [Region.dummy] else l) = orDummy l := by
        simp only [orDummy, List.length_eq_zero_iff]
      simp only [memblockRemoveRegion, rgn_append_length t h, h, erased, empty]

end

theorem trimLoop_nil {align : Nat} {t : MemblockType} {pre : List Region} (h : t.regions = pre) (rounds : Nat) :
    trimLoop align (rounds + 1) t pre.length = some t := by
  have outside : ¬ pre.length < t.cnt := by simp [MemblockType.cnt, h]
  rw [trimLoop, if_neg outside]

/-- The loop keeps what is left of the regions and takes only the removed ones out of the total. -/
theorem trimLoop_spec {align : Nat} {rest : List Region} : ∀ {pre : List Region} {t : MemblockType} {rounds : Nat},
    t.regions = pre ++ rest → pre ++ rest ≠ [] → total rest ≤ t.totalSize → t.totalSize < 2 ^ 64 →
    rest.length + 2 ≤ rounds →
    trimLoop align rounds t pre.length = some { t with
      regions := orDummy (pre ++ rest.filterMap (trim1 align))
      totalSize := t.totalSize - total (dropped align rest) } := by
  induction rest with
  | nil =>
      intro pre t rounds h ne _ _ enough
      obtain ⟨rounds, rfl⟩ := Nat.exists_eq_add_of_le' (show 1 ≤ rounds by omega)
      rw [List.append_nil] at h ne
      rw [trimLoop_nil h, List.filterMap_nil, List.append_nil, orDummy_of_ne ne, ← h]
      rfl
  | cons r rest ih =>
      intro pre t rounds h _ counted word enough
      obtain ⟨rounds, rfl⟩ := Nat.exists_eq_add_of_le' (show 1 ≤ rounds by omega)
      rw [List.length_cons] at enough
      rw [total_cons] at counted
      rw [trimLoop_cons h]
      cases trimmed : trim1 align r with
      | some r' =>
          have drop : dropped align (r :: rest) = dropped align rest := by
            rw [dropped, List.filter_cons_of_neg (by simp [trimmed]), dropped]
          have next := @ih (pre ++ [r']) { t with regions := (pre ++ [r']) ++ rest } rounds rfl (by simp) (by simp; omega)
            word (by omega)
          refine next.trans ?_
          rw [List.filterMap_cons_some trimmed, drop, List.append_assoc, List.singleton_append]
      | none =>
          have drop : total (dropped align (r :: rest)) = r.size + total (dropped align rest) := by
            rw [dropped, List.filter_cons_of_pos (by simp [trimmed]), total_cons, dropped]
          have left : u64Sub t.totalSize r.size = t.totalSize - r.size := u64Sub_of_le word (by omega)
          simp only [List.filterMap_cons_none trimmed, drop, left]
          by_cases empty : pre ++ rest = []
          · obtain ⟨rfl, rfl⟩ := List.append_eq_nil_iff.mp empty
            -- the dummy entry is passed in the next round
            obtain ⟨rounds, rfl⟩ := Nat.exists_eq_add_of_le' (show 2 ≤ rounds by simpa using enough)
            have filled : ({ t with regions := [Region.dummy], totalSize := t.totalSize - r.size } : MemblockType).regions =
                [] ++ Region.dummy :: [] := rfl
            refine (trimLoop_cons filled).trans ?_
            rw [trim1_dummy]
            exact trimLoop_nil rfl rounds
          · have next := @ih pre { t with regions := pre ++ rest, totalSize := t.totalSize - r.size } rounds rfl empty
              (by simp only; omega) (by simp only; omega) (by omega)
            rw [orDummy_of_ne empty, next]
            simp only [Nat.sub_sub]

/-! ## The rounding -/

/-- The least multiple from `x` on. -/
def ceilTo (align x : Nat) : Nat := (x + (align - 1)) / align * align

/-- The greatest multiple up to `x`. -/
def floorTo (align x : Nat) : Nat := x / align * align

/-- The addresses that trimming leaves of a region, in unbounded integers. -/
def Trimmed (align : Nat) (r : Region) (a : Nat) : Prop := ceilTo align r.base ≤ a ∧ a < floorTo align r.stop

section

variable {k x : Nat}

theorem le_ceilTo : x ≤ ceilTo (2 ^ k) x := by
  have pos := Nat.two_pow_pos k
  have digits := Nat.div_add_mod (x + (2 ^ k - 1)) (2 ^ k)
  have small := Nat.mod_lt (x + (2 ^ k - 1)) pos
  rw [ceilTo, Nat.mul_comm]
  omega

theorem ceilTo_eq_iff : ceilTo (2 ^ k) x = x ↔ 2 ^ k ∣ x := by
  constructor
  · intro same
    rw [← same]
    exact Dvd.intro_left _ rfl
  · rintro ⟨q, rfl⟩
    have pos := Nat.two_pow_pos k
    rw [ceilTo, Nat.mul_add_div pos, Nat.div_eq_of_lt (Nat.sub_one_lt pos.ne'), Nat.add_zero, Nat.mul_comm]

theorem floorTo_le : floorTo (2 ^ k) x ≤ x := Nat.div_mul_le_self _ _

theorem floorTo_eq_iff : floorTo (2 ^ k) x = x ↔ 2 ^ k ∣ x := (Nat.dvd_iff_div_mul_eq x _).symm

theorem pow_mul_blocks (small : k < 64) : 2 ^ k * 2 ^ (64 - k) = 2 ^ 64 := by
  rw [← Nat.pow_add, Nat.add_sub_cancel' small.le]

/-- A start that is not in the last block is rounded up as in unbounded integers. -/
theorem roundUp_low (small : k < 64) (low : x + 2 ^ k ≤ 2 ^ 64) : roundUp x (2 ^ k) = ceilTo (2 ^ k) x := by
  have pos := Nat.two_pow_pos k
  by_cases zero : x = 0
  · rw [zero, roundUp_zero, ceilTo_eq_iff.mpr (dvd_zero _)]
  · have split : x + (2 ^ k - 1) = x - 1 + 2 ^ k := by omega
    have blocks := pow_mul_blocks small
    have last : (x - 1) / 2 ^ k < 2 ^ (64 - k) - 1 := by
      rw [Nat.div_lt_iff_lt_mul pos, Nat.sub_mul, Nat.mul_comm (2 ^ (64 - k)), blocks]
      omega
    have below : (x - 1) / 2 ^ k + 1 < 2 ^ (64 - k) := Nat.add_lt_of_lt_sub last
    have high : ((x - 1) / 2 ^ k + 1) * 2 ^ k < 2 ^ 64 := by
      rw [← blocks, Nat.mul_comm]
      exact Nat.mul_lt_mul_of_pos_left below pos
    rw [roundUp_eq (Nat.pos_of_ne_zero zero) (by omega) small, u64_of_lt high, ceilTo, split, Nat.add_div_right _ pos]

/-- In the last block it wraps to zero. -/
theorem roundUp_high (small : k < 64) (word : x < 2 ^ 64) (high : 2 ^ 64 < x + 2 ^ k) : roundUp x (2 ^ k) = 0 := by
  have pos := Nat.two_pow_pos k
  have top : 2 ^ k < 2 ^ 64 := Nat.pow_lt_pow_right (by decide) small
  have blocks := pow_mul_blocks small
  have some : 0 < 2 ^ (64 - k) := Nat.two_pow_pos _
  have last : (x - 1) / 2 ^ k = 2 ^ (64 - k) - 1 := by
    apply Nat.div_eq_of_lt_le
    · rw [Nat.sub_mul, Nat.mul_comm, blocks]
      omega
    · rw [Nat.sub_add_cancel some, Nat.mul_comm, blocks]
      omega
  rw [roundUp_eq (by omega) word small, last, Nat.sub_add_cancel some, Nat.mul_comm, blocks]
  rfl

theorem roundDown_high (small : k < 64) (word : x < 2 ^ 64) (high : 2 ^ 64 ≤ x + 2 ^ k) :
    roundDown x (2 ^ k) = 2 ^ 64 - 2 ^ k := by
  have pos := Nat.two_pow_pos k
  have blocks := pow_mul_blocks small
  have last : x / 2 ^ k = 2 ^ (64 - k) - 1 := by
    apply Nat.div_eq_of_lt_le
    · rw [Nat.sub_mul, Nat.mul_comm, blocks]
      omega
    · rw [Nat.sub_add_cancel (Nat.two_pow_pos _), Nat.mul_comm, blocks]
      exact word
  rw [roundDown_eq word small, last, Nat.sub_mul, Nat.mul_comm, blocks, Nat.one_mul]

end

/-! ## What is left of a region -/

section

variable {k : Nat} (small : k < 64) {r : Region} (high : r.stop ≤ physAddrMax)

include small high

theorem trim1_low (low : r.base + 2 ^ k ≤ 2 ^ 64) : trim1 (2 ^ k) r =
    if 2 ^ k ∣ r.base ∧ 2 ^ k ∣ r.stop then some r
    else if ceilTo (2 ^ k) r.base < floorTo (2 ^ k) r.stop then
      some ⟨ceilTo (2 ^ k) r.base, floorTo (2 ^ k) r.stop - ceilTo (2 ^ k) r.base, r.tag⟩
    else none := by
  have word : r.stop < 2 ^ 64 := by
    simp only [physAddrMax] at high
    omega
  have down : roundDown r.limit (2 ^ k) = floorTo (2 ^ k) r.stop := by
    rw [limit_of_le high, roundDown_eq word small, floorTo]
  simp only [trim1, roundUp_low small low, down]
  simp only [limit_of_le high, ceilTo_eq_iff, floorTo_eq_iff]

/-- The addresses that are left are those of the whole blocks. -/
theorem trim1_contains (low : r.base + 2 ^ k ≤ 2 ^ 64) (a : Nat) :
    (∃ r', trim1 (2 ^ k) r = some r' ∧ r'.Contains a) ↔ Trimmed (2 ^ k) r a := by
  rw [trim1_low small high low]
  split
  · rename_i aligned
    rw [Trimmed, ceilTo_eq_iff.mpr aligned.1, floorTo_eq_iff.mpr aligned.2]
    simp only [Option.some.injEq, exists_eq_left', Contains]
  · split
    · rename_i some
      have until' : ceilTo (2 ^ k) r.base + (floorTo (2 ^ k) r.stop - ceilTo (2 ^ k) r.base) = floorTo (2 ^ k) r.stop :=
        Nat.add_sub_cancel' some.le
      simp only [Option.some.injEq, exists_eq_left', Contains, Trimmed]
      rw [show stop ⟨ceilTo (2 ^ k) r.base, _, r.tag⟩ = _ from until']
    · rename_i none
      constructor
      · rintro ⟨_, ⟨⟩, _⟩
      · rintro ⟨above, below⟩
        exact absurd (above.trans_lt below) none

theorem trim1_size (low : r.base + 2 ^ k ≤ 2 ^ 64) {r' : Region} (left : trim1 (2 ^ k) r = some r') :
    r'.size ≤ r.size ∧ (r'.size = r.size → 2 ^ k ∣ r.base ∧ 2 ^ k ∣ r.stop) := by
  rw [trim1_low small high low] at left
  split at left
  · rename_i aligned
    cases left
    exact ⟨le_rfl, fun _ => aligned⟩
  · split at left
    · cases left
      have above := @le_ceilTo k r.base
      have below := @floorTo_le k r.stop
      have size : r.stop = r.base + r.size := rfl
      refine ⟨by simp only; omega, fun same => ?_⟩
      rw [← ceilTo_eq_iff, ← floorTo_eq_iff]
      simp only at same
      omega
    · cases left

/-- A region in the last block grows to all blocks but the last one. -/
theorem trim1_high (pos : 0 < r.size) (last : 2 ^ 64 < r.base + 2 ^ k) :
    trim1 (2 ^ k) r = some ⟨0, 2 ^ 64 - 2 ^ k, r.tag⟩ := by
  have top : 2 ^ k < 2 ^ 64 := Nat.pow_lt_pow_right (by decide) small
  have word : r.stop < 2 ^ 64 := by
    simp only [physAddrMax] at high
    omega
  have up : roundUp r.base (2 ^ k) = 0 := by
    apply roundUp_high small _ last
    simp only [stop] at word
    omega
  have down : roundDown r.limit (2 ^ k) = 2 ^ 64 - 2 ^ k := by
    rw [limit_of_le high]
    apply roundDown_high small word
    simp only [stop]
    omega
  rw [trim1, up, down, if_neg (by omega), if_pos (by omega), Nat.sub_zero]

end

/-- The sizes of what is left and of what is removed add up unless something is cut off. -/
theorem total_trimmed {f : Region → Option Region} {l : List Region}
    (smaller : ∀ r ∈ l, ∀ r', f r = some r' → r'.size ≤ r.size) :
    total (l.filterMap f) + total (l.filter fun r => (f r).isNone) ≤ total l ∧
      (total (l.filterMap f) + total (l.filter fun r => (f r).isNone) = total l ↔
        ∀ r ∈ l, ∀ r', f r = some r' → r'.size = r.size) := by
  induction l with
  | nil => exact ⟨le_rfl, iff_of_true rfl fun r member => nomatch member⟩
  | cons x l ih =>
      obtain ⟨le, equal⟩ := ih fun r member => smaller r (List.mem_cons_of_mem x member)
      rw [List.forall_mem_cons, ← equal]
      cases left : f x with
      | none =>
          rw [List.filterMap_cons_none left, List.filter_cons_of_pos (by simp [left]), total_cons, total_cons]
          refine ⟨by omega, ?_⟩
          constructor
          · exact fun same => ⟨nofun, by omega⟩
          · exact fun ⟨_, same⟩ => by omega
      | some x' =>
          have first := smaller x (by simp) x' left
          rw [List.filterMap_cons_some left, List.filter_cons_of_neg (by simp [left]), total_cons, total_cons]
          refine ⟨by omega, ?_⟩
          constructor
          · intro same
            refine ⟨?_, by omega⟩
            rintro _ ⟨⟩
            omega
          · rintro ⟨size, same⟩
            have size := size x' rfl
            omega

/-! ## The whole array -/

/-- The array after the loop. -/
def trimmedType (align : Nat) (t : MemblockType) : MemblockType :=
  { t with
    regions := orDummy (t.regions.filterMap (trim1 align))
    totalSize := t.totalSize - total (dropped align t.regions) }

theorem memblockTrimMemory_eq {mb : State} (inv : Inv mb) (align : Nat) :
    memblockTrimMemory mb align = some { mb with memory := trimmedType align mb.memory } := by
  have inv : TypeInv mb.memory := inv .memory
  obtain ⟨l, contents⟩ := inv.contents
  have ne : mb.memory.regions ≠ [] := List.ne_nil_of_length_pos inv.cnt_pos
  have loop := @trimLoop_spec align mb.memory.regions [] mb.memory (mb.memory.cnt + 2) rfl ne
    inv.totalSize_eq.ge contents.totalSize_lt le_rfl
  rw [memblockTrimMemory]
  rw [List.length_nil] at loop
  rw [loop]
  rfl

theorem trimmedType_dummy {align : Nat} {t : MemblockType} (empty : t.regions = [Region.dummy]) :
    trimmedType align t = t := by
  have kept : t.regions.filterMap (trim1 align) = t.regions := by
    rw [empty, List.filterMap_cons_some (trim1_dummy align), List.filterMap_nil]
  have none : dropped align t.regions = [] := by
    rw [empty, dropped, List.filter_cons_of_neg (by rw [trim1_dummy]; decide), List.filter_nil]
  rw [trimmedType, kept, none, total_nil, Nat.sub_zero, empty, orDummy_of_ne (by decide), ← empty]

/-- The call ends with the invariant and with the memory that the claim of its name describes. -/
def TrimsMemory (mb : State) (align : Nat) : Prop :=
  ∃ mb', memblockTrimMemory mb align = some mb' ∧ Inv mb' ∧
    ∀ a, (∃ r ∈ mb'.memory.regions, r.Contains a) ↔ ∃ r ∈ mb.memory.regions, Trimmed align r a

/-- Nothing of the region is cut off unless all of it is, and its start can be rounded up. -/
def CutWhole (align : Nat) (r : Region) : Prop :=
  r.base + align ≤ 2 ^ 64 ∧ (align ∣ r.base ∧ align ∣ r.stop ∨ ∀ a, ¬ Trimmed align r a)

theorem not_contains_dummy (a : Nat) : ¬ Region.dummy.Contains a := by
  simp only [Contains, stop, Region.dummy]
  omega

theorem contains_orDummy {l : List Region} {a : Nat} : (∃ r ∈ orDummy l, r.Contains a) ↔ ∃ r ∈ l, r.Contains a := by
  unfold orDummy
  split
  · rename_i empty
    rw [empty]
    simp only [List.mem_singleton, exists_eq_left, not_contains_dummy, List.not_mem_nil, false_and, exists_false]
  · rfl

section

variable {mb : State} {k : Nat} (inv : TypeInv mb.memory) (small : k < 64)

include inv small

theorem trimmed_contains (low : ∀ r ∈ mb.memory.regions, r.base + 2 ^ k ≤ 2 ^ 64) (a : Nat) :
    (∃ r ∈ (trimmedType (2 ^ k) mb.memory).regions, r.Contains a) ↔ ∃ r ∈ mb.memory.regions, Trimmed (2 ^ k) r a := by
  rw [trimmedType, contains_orDummy]
  simp only [List.mem_filterMap]
  constructor
  · rintro ⟨r', ⟨r, member, left⟩, inside⟩
    exact ⟨r, member, (trim1_contains small (inv.bounded r member) (low r member) a).mp ⟨r', left, inside⟩⟩
  · rintro ⟨r, member, inside⟩
    obtain ⟨r', left, inside⟩ := (trim1_contains small (inv.bounded r member) (low r member) a).mpr inside
    exact ⟨r', ⟨r, member, left⟩, inside⟩

/-- Regions that are kept whole or removed leave the invariant. -/
theorem trimmed_inv (whole : ∀ r ∈ mb.memory.regions, CutWhole (2 ^ k) r) : TypeInv (trimmedType (2 ^ k) mb.memory) := by
  rcases inv.sized with pos | empty
  · -- what is left of a region is the region
    have same (r : Region) (member : r ∈ mb.memory.regions) (r' : Region) (left : trim1 (2 ^ k) r = some r') : r' = r := by
      obtain ⟨low, cut⟩ := whole r member
      rw [trim1_low small (inv.bounded r member) low] at left
      split at left
      · exact (Option.some.inj left).symm
      · rename_i not_aligned
        split at left
        · rename_i some
          exact absurd ⟨le_rfl, some⟩ (cut.resolve_left not_aligned _)
        · cases left
    have kept (r' : Region) (member : r' ∈ mb.memory.regions.filterMap (trim1 (2 ^ k))) : r' ∈ mb.memory.regions := by
      obtain ⟨r, member, left⟩ := List.mem_filterMap.mp member
      rwa [same r member r' left]
    have apart : (mb.memory.regions.filterMap (trim1 (2 ^ k))).Pairwise fun x y => x.stop ≤ y.base := by
      rw [List.pairwise_filterMap]
      apply inv.apart.imp_of_mem
      intro x y first second before x' left y' left'
      rwa [same x first x' left, same y second y' left']
    have ordered : Ordered (mb.memory.regions.filterMap (trim1 (2 ^ k))) := ⟨fun r member => pos r (kept r member), apart⟩
    have sum := (total_trimmed (f := trim1 (2 ^ k)) (l := mb.memory.regions) fun r member r' left => by
      rw [same r member r' left]).2.mpr fun r member r' left => by rw [same r member r' left]
    have contents : Contents (trimmedType (2 ^ k) mb.memory) (mb.memory.regions.filterMap (trim1 (2 ^ k))) := by
      refine ⟨⟨ordered, fun r member => inv.bounded r (kept r member)⟩, rfl, ?_⟩
      change mb.memory.totalSize - total (dropped (2 ^ k) mb.memory.regions) = _
      rw [inv.totalSize_eq]
      exact Nat.sub_eq_of_eq_add sum.symm
    exact contents.typeInv ((List.length_filterMap_le _ _).trans inv.cnt_le) inv.max_pos
  · rw [trimmedType_dummy empty]
    exact inv

/-- A region in the last block becomes a second one that begins at zero. -/
theorem low_of_trimmed (inv' : TypeInv (trimmedType (2 ^ k) mb.memory))
    (exact : ∀ a, (∃ r ∈ (trimmedType (2 ^ k) mb.memory).regions, r.Contains a) ↔
      ∃ r ∈ mb.memory.regions, Trimmed (2 ^ k) r a) :
    ∀ r ∈ mb.memory.regions, r.base + 2 ^ k ≤ 2 ^ 64 := by
  intro r member
  by_contra last
  have last : 2 ^ 64 < r.base + 2 ^ k := Nat.not_le.mp last
  have top : 2 ^ k < 2 ^ 64 := Nat.pow_lt_pow_right (by decide) small
  have pos : ∀ r ∈ mb.memory.regions, 0 < r.size := by
    rcases inv.sized with pos | empty
    · exact pos
    · rw [empty, List.mem_singleton] at member
      rw [member] at last
      exact absurd last (by simp only [Region.dummy]; omega)
  have grown := trim1_high small (inv.bounded r member) (pos r member) last
  have kept : ∀ r', r' ∈ mb.memory.regions.filterMap (trim1 (2 ^ k)) → r' ∈ (trimmedType (2 ^ k) mb.memory).regions := by
    intro r' left
    rw [trimmedType, orDummy_of_ne (List.ne_nil_of_mem left)]
    exact left
  -- address zero is in the region that has grown, so another one begins at zero
  obtain ⟨r₀, member₀, above, below⟩ := (exact 0).mp ⟨_, kept _ (List.mem_filterMap.mpr ⟨r, member, grown⟩), by
    simp only [Contains, stop]
    omega⟩
  have zero : r₀.base = 0 := Nat.le_zero.mp (le_ceilTo.trans above)
  obtain ⟨r₁, left, inside⟩ := (trim1_contains small (inv.bounded r₀ member₀) (by omega) 0).mpr ⟨above, below⟩
  have apart : mb.memory.regions.Pairwise fun x y => ∀ x', trim1 (2 ^ k) x = some x' → ∀ y', trim1 (2 ^ k) y = some y' →
      x'.stop ≤ y'.base := by
    have apart := inv'.apart
    rw [trimmedType, orDummy_of_ne (List.ne_nil_of_mem (List.mem_filterMap.mpr ⟨r, member, grown⟩)),
      List.pairwise_filterMap] at apart
    exact apart
  obtain ⟨i, lt, rfl⟩ := List.getElem_of_mem member₀
  obtain ⟨j, lt', rfl⟩ := List.getElem_of_mem member
  have old := List.pairwise_iff_getElem.mp inv.apart
  have new := List.pairwise_iff_getElem.mp apart
  rcases Nat.lt_trichotomy i j with less | rfl | more
  · exact absurd (new i j lt lt' less r₁ left _ grown) (Nat.not_le.mpr inside.2)
  · omega
  · have before := old j i lt' lt more
    have size := pos _ member
    simp only [stop] at before
    omega

end

/-- `memblock_trim_memory` ends.  It does what it should if and only if no region is cut and no start wraps. -/
theorem trims_memory_iff {mb : State} (inv : Inv mb) {k : Nat} (small : k < 64) :
    (∃ mb', memblockTrimMemory mb (2 ^ k) = some mb') ∧
      (TrimsMemory mb (2 ^ k) ↔ ∀ r ∈ mb.memory.regions, CutWhole (2 ^ k) r) := by
  have memory : TypeInv mb.memory := inv .memory
  refine ⟨⟨_, memblockTrimMemory_eq inv _⟩, ?_⟩
  constructor
  · rintro ⟨mb', done, inv', exact'⟩
    rw [memblockTrimMemory_eq inv] at done
    cases done
    have memory' : TypeInv (trimmedType (2 ^ k) mb.memory) := inv' .memory
    have low := low_of_trimmed memory small memory' exact'
    have smaller (r : Region) (member : r ∈ mb.memory.regions) (r' : Region) (left : trim1 (2 ^ k) r = some r') :=
      trim1_size small (memory.bounded r member) (low r member) left
    have sum := total_trimmed fun r member r' left => (smaller r member r' left).1
    have total : total (mb.memory.regions.filterMap (trim1 (2 ^ k))) + total (dropped (2 ^ k) mb.memory.regions) =
        total mb.memory.regions := by
      have total := memory'.totalSize_eq
      change mb.memory.totalSize - _ = Extent.total (orDummy _) at total
      rw [total_orDummy, memory.totalSize_eq] at total
      have le := sum.1
      rw [← dropped] at le
      omega
    have whole := sum.2.mp total
    intro r member
    refine ⟨low r member, ?_⟩
    cases left : trim1 (2 ^ k) r with
    | some r' => exact .inl ((smaller r member r' left).2 (whole r member r' left))
    | none =>
        refine .inr fun a inside => ?_
        obtain ⟨r', some, -⟩ := (trim1_contains small (memory.bounded r member) (low r member) a).mpr inside
        rw [left] at some
        cases some
  · intro whole
    refine ⟨_, memblockTrimMemory_eq inv _, ?_, ?_⟩
    · exact inv.setType .memory (trimmed_inv memory small whole)
    · exact trimmed_contains memory small fun r member => (whole r member).1

/-! ## A region that is cut -/

/-- One region of two pages that begins in the middle of a page. -/
def State.halfPages : State :=
  { State.init with
    memory := { MemblockType.init with regions := [⟨0x1800, 0x2000, Flags.none⟩], totalSize := 0x2000 } }

theorem State.halfPages_inv : Inv State.halfPages := by
  intro ty
  cases ty with
  | memory =>
      refine ⟨by decide, by decide, List.pairwise_singleton _ _, .inl (by decide), ?_, by decide⟩
      intro r member
      rw [List.mem_singleton.mp member]
      decide
  | reserved => exact State.fourPages_inv .reserved

/-- The total still counts the two halves that are cut off. -/
theorem halfPages_total : Inv State.halfPages ∧ ¬ TrimsMemory State.halfPages 0x1000 := by
  refine ⟨State.halfPages_inv, ?_⟩
  rintro ⟨mb', done, inv', -⟩
  have total := (inv' .memory).totalSize_eq
  have trimmed : memblockTrimMemory State.halfPages 0x1000 =
      some { State.halfPages with memory := { MemblockType.init with
        regions := [⟨0x2000, 0x1000, Flags.none⟩], totalSize := 0x2000 } } := by decide +kernel
  rw [trimmed] at done
  cases done
  exact absurd total (by decide)

/-- Whole pages stay. -/
theorem fourPages_trimmed : TrimsMemory State.fourPages (2 ^ 12) := by
  apply (trims_memory_iff State.fourPages_inv (k := 12) (by decide)).2.mpr
  intro r member
  rw [List.mem_singleton.mp member]
  exact ⟨by decide, .inl ⟨by decide, by decide⟩⟩

end Miracle.Memblock
