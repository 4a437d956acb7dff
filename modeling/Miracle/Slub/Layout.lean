import Miracle.Slub.Sizing
import Miracle.Slub.Safety

/-! # The layout of slabs

The size that `calculate_sizes` sets is a multiple of the alignment with room for the object
and for a free pointer behind it.  The packed orders decode to what was packed, so a slab has
as many objects as fit in its block: they are aligned and do not overlap.
-/

namespace Miracle.Slub

open Sizing

/-! ## Packed orders -/

/-- `oo` packs an order and a number of objects that suit the size. -/
structure Packs (oo : OrderObjects) (size : Nat) : Prop where
  made : ooMake (ooOrder oo) size = .ok oo
  order : ooOrder oo < maxOrder
  objects : ooObjects oo = Slub.orderObjects (ooOrder oo) size
  some : 1 ≤ ooObjects oo
  few : ooObjects oo ≤ maxObjsPerPage

variable {size order : Nat}

theorem ooMake_decode (small : order < maxOrder) (few : Slub.orderObjects order size ≤ maxObjsPerPage) (pos : 0 < size) :
    ∃ oo, ooMake order size = .ok oo ∧ ooOrder oo = order ∧ ooObjects oo = Slub.orderObjects order size := by
  have made := orderObjects_ok small.le pos
  unfold maxObjsPerPage at few
  unfold maxOrder at small
  have shifted : order <<< ooShift = order * 65536 := Nat.shiftLeft_eq _ _
  have inner : u32 (order * 65536) = order * 65536 := u32_of_lt (by omega)
  have word : u32 (u32 (order <<< ooShift) + Slub.orderObjects order size) =
      order * 65536 + Slub.orderObjects order size := by
    rw [shifted, inner, u32_of_lt (by omega)]
  refine ⟨⟨order * 65536 + Slub.orderObjects order size⟩, ?_, ?_, ?_⟩
  · rw [ooMake, made, ok_bind, word]
    rfl
  · simp only [ooOrder, ooShift, Nat.shiftRight_eq_div_pow]
    omega
  · have low : 1 <<< ooShift - 1 = 2 ^ 16 - 1 := by decide
    simp only [ooObjects, low, Nat.and_two_pow_sub_one_eq_mod]
    omega

theorem orderObjects_pos (pos : 0 < size) (word : size < 2 ^ 64) (base : getOrder size ≤ order) :
    1 ≤ Slub.orderObjects order size :=
  Nat.div_pos ((getOrder_le_iff pos word).mp base) pos

theorem Sizing.Suits.packs (suits : Suits size order) (pos : 0 < size) (word : size < 2 ^ 64) :
    ∃ oo, ooMake order size = .ok oo ∧ ooOrder oo = order ∧ Packs oo size := by
  obtain ⟨base, small, few⟩ := suits
  obtain ⟨oo, made, isOrder, isObjects⟩ := ooMake_decode small few pos
  refine ⟨oo, made, isOrder, ?_⟩
  constructor
  case made => rw [isOrder, made]
  case order => rw [isOrder]; exact small
  case objects => rw [isObjects, isOrder]
  case some => rw [isObjects]; exact orderObjects_pos pos word base
  case few => rw [isObjects]; exact few

/-- The fallback order has no more objects than the chosen one. -/
theorem Sizing.Suits.fallback (suits : Suits size order) : Suits size (getOrder size) := by
  obtain ⟨base, small, few⟩ := suits
  refine ⟨le_rfl, base.trans_lt small, ?_⟩
  exact (Nat.div_le_div_right (pageSize_shift_mono base)).trans few

theorem Packs.fits {oo : OrderObjects} (packs : Packs oo size) : ooObjects oo * size ≤ pageSize <<< ooOrder oo := by
  rw [packs.objects]
  exact Nat.div_mul_le_self _ _

/-! ## The size of a slot -/

/-- The free pointer goes behind the object. -/
def KmemCache.Relocates (s : KmemCache) : Prop := s.flags &&& slabPoison ≠ 0 ∨ s.ctor = true

instance (s : KmemCache) : Decidable s.Relocates := inferInstanceAs (Decidable (_ ∨ _))

/-- The size that `calculate_sizes` sets. -/
def KmemCache.slotSize (s : KmemCache) : Nat :=
  let size := align32 s.objectSize wordSize
  align32 (if s.Relocates then u32 (size + wordSize) else size) s.align

/-- What `calculate_sizes` sets before it asks for an order. -/
def KmemCache.sized (s : KmemCache) : KmemCache :=
  let size := align32 s.objectSize wordSize
  { s with
    inuse := size
    offset := if s.Relocates then size else s.offset
    size := s.slotSize }

/-- What `calculate_sizes` sets once there is an order. -/
def KmemCache.ordered (s : KmemCache) (oo min : OrderObjects) : KmemCache :=
  { s.sized with
    allocflags := if s.flags &&& slabCacheDma ≠ 0 then gfpDma else 0
    oo := oo
    min := min
    max := if ooObjects s.max < ooObjects oo then oo else s.max }

theorem calculateSizes_eq (nrPossibleCpuIds : Nat) (s : KmemCache) :
    calculateSizes nrPossibleCpuIds s (-1) = (do
      match ← calculateOrder nrPossibleCpuIds s.slotSize with
      | none => return (s.sized, false)
      | some order =>
          let oo ← ooMake order s.slotSize
          let min ← ooMake (getOrder s.slotSize) s.slotSize
          return (s.ordered oo min, decide (ooObjects oo ≠ 0))) := by
  have negative : ¬(0 : Int) ≤ -1 := by decide
  unfold calculateSizes
  simp only [if_neg negative]
  rfl

/-- An alignment that an `unsigned int` can hold. -/
def PowAlign (a : Nat) : Prop := ∃ k, k ≤ 31 ∧ a = 2 ^ k

variable {s : KmemCache}

theorem KmemCache.align_dvd_slotSize (pow : PowAlign s.align) : s.align ∣ s.slotSize := by
  obtain ⟨k, le, eq⟩ := pow
  simp only [slotSize, eq]
  exact dvd_alignWord (by omega)

theorem align32_lt (x a : Nat) : align32 x a < 2 ^ 32 := by
  have masked : align32 x a ≤ 2 ^ 32 - 1 - (a - 1) := Nat.and_le_right
  omega

theorem word_dvd_align32 (x : Nat) : wordSize ∣ align32 x wordSize := dvd_alignWord (k := 3) (by decide)

theorem KmemCache.word_dvd_slotSize (pow : PowAlign s.align) : wordSize ∣ s.slotSize := by
  obtain ⟨k, le, eq⟩ := pow
  have rounded := word_dvd_align32 s.objectSize
  have unit : ∀ x, x < 2 ^ 32 → wordSize ∣ x → wordSize ∣ align32 x (2 ^ k) := by
    intro x word div
    by_cases coarse : 3 ≤ k
    · exact (pow_dvd_pow 2 coarse).trans (dvd_alignWord (by omega))
    · rw [align32, alignWord_self (by omega) word ((pow_dvd_pow 2 (by omega : k ≤ 3)).trans div)]
      exact div
  have word := align32_lt s.objectSize wordSize
  simp only [slotSize, eq]
  split
  · apply unit _ (u32_lt _)
    apply (Nat.dvd_mod_iff (by decide : wordSize ∣ 2 ^ 32)).mpr
    exact dvd_add rounded dvd_rfl
  · exact unit _ word rounded

/-- With room for the roundings nothing wraps. -/
theorem KmemCache.slotSize_room (pow : PowAlign s.align) (room : s.objectSize + 16 < 2 ^ 31) :
    s.objectSize ≤ s.sized.inuse ∧ s.sized.inuse + (if s.Relocates then wordSize else 0) ≤ s.slotSize := by
  obtain ⟨k, le, eq⟩ := pow
  have most : 2 ^ k ≤ 2 ^ 31 := Nat.pow_le_pow_right (by decide) le
  have used : s.objectSize ≤ align32 s.objectSize wordSize := le_alignWord (k := 3) (by decide) (by omega)
  have near : align32 s.objectSize wordSize < s.objectSize + wordSize := alignWord_lt (k := 3) (by decide)
  unfold wordSize at near
  refine ⟨used, ?_⟩
  have behind : (if s.Relocates then u32 (align32 s.objectSize wordSize + wordSize) else align32 s.objectSize wordSize) =
      align32 s.objectSize wordSize + (if s.Relocates then wordSize else 0) := by
    split
    · exact u32_of_lt (by unfold wordSize; omega)
    · rfl
  simp only [sized, slotSize, behind, eq]
  apply le_alignWord (by omega)
  have extra : (if s.Relocates then wordSize else 0) ≤ 8 := by
    split
    · exact le_rfl
    · exact Nat.zero_le 8
  unfold wordSize at extra ⊢
  omega

theorem KmemCache.slotSize_near (pow : PowAlign s.align) (plain : ¬s.Relocates) :
    s.slotSize < s.objectSize + wordSize + s.align := by
  obtain ⟨k, le, eq⟩ := pow
  have near : align32 s.objectSize wordSize < s.objectSize + wordSize := alignWord_lt (k := 3) (by decide)
  have slot : align32 (align32 s.objectSize wordSize) (2 ^ k) < align32 s.objectSize wordSize + 2 ^ k :=
    alignWord_lt (by omega)
  simp only [slotSize, if_neg plain, eq]
  omega

theorem KmemCache.slotSize_lt (s : KmemCache) : s.slotSize < 2 ^ 32 := align32_lt _ _

/-! ## What `calculate_sizes` returns -/

theorem calculateSizes_zero (nrPossibleCpuIds : Nat) (zero : s.slotSize = 0) :
    calculateSizes nrPossibleCpuIds s (-1) = .error .divideByZero := by
  rw [calculateSizes_eq, zero]
  rfl

theorem calculateSizes_spec (nrPossibleCpuIds : Nat) (pow : PowAlign s.align) (nonzero : s.slotSize ≠ 0) :
    Returns (calculateSizes nrPossibleCpuIds s (-1)) (fun r =>
      (r = (s.sized, false) ∧ ¬getOrder s.slotSize < maxOrder) ∨
      ∃ oo min, r = (s.ordered oo min, true) ∧ Packs oo s.slotSize ∧ Packs min s.slotSize) := by
  have pos : 0 < s.slotSize := Nat.pos_of_ne_zero nonzero
  have two : 2 ≤ s.slotSize := le_trans (by decide) (Nat.le_of_dvd pos (KmemCache.word_dvd_slotSize pow))
  have word := s.slotSize_lt
  obtain ⟨found, chosen, suits⟩ := (calculateOrder_spec nrPossibleCpuIds two word).exists_ok
  rw [calculateSizes_eq, chosen, ok_bind]
  cases found with
  | none =>
      refine Or.inl ⟨rfl, fun fits => ?_⟩
      have found := calculateOrder_found nrPossibleCpuIds two word fits
      rw [chosen] at found
      exact found rfl
  | some order =>
      have suits := suits order rfl
      obtain ⟨oo, made, -, packs⟩ := suits.packs pos (by omega)
      obtain ⟨min, madeMin, -, packsMin⟩ := suits.fallback.packs pos (by omega)
      have holds : decide (ooObjects oo ≠ 0) = true := decide_eq_true (Nat.ne_of_gt packs.some)
      simp only [made, madeMin, ok_bind, holds]
      exact Or.inr ⟨oo, min, rfl, packs, packsMin⟩

/-! ## The objects of a slab -/

theorem threadObjects_eq (n p : Nat) (word : p + n * size < 2 ^ 64) :
    threadObjects size n p = (List.range (n + 1)).map (fun i => p + i * size) := by
  induction n generalizing p with
  | zero => simp [threadObjects]
  | succ n ih =>
      have next : u64 (p + size) = p + size := u64_of_lt (by rw [Nat.succ_mul] at word; omega)
      have rest := ih (p + size) (by rw [Nat.succ_mul] at word; omega)
      rw [threadObjects, next, rest, List.range_succ_eq_map (n := n + 1), List.map_cons, List.map_map]
      congr 1
      · simp
      · apply List.map_congr_left
        intro i _
        simp only [Function.comp_apply, Nat.succ_mul]
        omega

/-- A freelist that stays in the block at `start` and whose objects are aligned and apart. -/
structure WellLaid (size align len start : Nat) (l : List Nat) : Prop where
  inside : ∀ p ∈ l, start ≤ p ∧ p + size ≤ start + len
  aligned : ∀ p ∈ l, align ∣ p
  apart : l.Pairwise (fun p q => p + size ≤ q)

theorem Packs.slabFreelist_eq {oo : OrderObjects} {start : Nat} (packs : Packs oo s.size)
    (memory : start + pageSize <<< ooOrder oo ≤ 2 ^ 64) (pos : 0 < s.size) :
    slabFreelist s oo start = (List.range (ooObjects oo)).map (fun i => start + i * s.size) := by
  have fits := packs.fits
  have some := packs.some
  have few := packs.few
  unfold maxObjsPerPage at few
  have field : ooObjects oo % 2 ^ 15 = ooObjects oo := Nat.mod_eq_of_lt (by omega)
  have count : ooObjects oo - 1 + 1 = ooObjects oo := by omega
  have split : (ooObjects oo - 1) * s.size + s.size = ooObjects oo * s.size := by
    rw [← Nat.succ_mul, Nat.succ_eq_add_one, count]
  simp only [slabFreelist, field]
  rw [threadObjects_eq _ _ (by omega), count]

theorem Packs.wellLaid {oo : OrderObjects} {align start : Nat} (packs : Packs oo s.size) (pow : PowAlign align)
    (unit : align ∣ s.size) (pos : 0 < s.size) (block : pageSize <<< ooOrder oo ∣ start)
    (memory : start + pageSize <<< ooOrder oo ≤ 2 ^ 64) :
    (slabFreelist s oo start).length = ooObjects oo ∧
      WellLaid s.size align (pageSize <<< ooOrder oo) start (slabFreelist s oo start) := by
  have fits := packs.fits
  have base : align ∣ start := by
    -- the block holds an object, so that it is at least as large as the alignment
    obtain ⟨k, -, rfl⟩ := pow
    have large : 2 ^ k ≤ pageSize <<< ooOrder oo :=
      (Nat.le_of_dvd pos unit).trans (le_trans (Nat.le_mul_of_pos_left _ packs.some) fits)
    have shape : pageSize <<< ooOrder oo = 2 ^ (12 + ooOrder oo) := by
      rw [Nat.shiftLeft_eq, pageSize, Nat.pow_add]
    rw [shape] at large block
    exact (pow_dvd_pow 2 ((Nat.pow_le_pow_iff_right (by decide)).mp large)).trans block
  rw [packs.slabFreelist_eq memory pos]
  refine ⟨by simp, ?_, ?_, ?_⟩
  · intro p mem
    obtain ⟨i, inRange, rfl⟩ := List.mem_map.mp mem
    have last : (i + 1) * s.size ≤ ooObjects oo * s.size := Nat.mul_le_mul_right _ (List.mem_range.mp inRange)
    rw [Nat.succ_mul] at last
    omega
  · intro p mem
    obtain ⟨i, -, rfl⟩ := List.mem_map.mp mem
    exact dvd_add base (unit.trans (Nat.dvd_mul_left _ _))
  · rw [List.pairwise_map]
    apply (List.pairwise_lt_range).imp
    intro i j less
    have next : (i + 1) * s.size ≤ j * s.size := Nat.mul_le_mul_right _ less
    rw [Nat.succ_mul] at next
    omega

/-- Sizing does not fault, and a cache that is not refused has slots with room for the object
    and orders whose slabs are well laid. -/
theorem calculate_sizes_lays_out (nrPossibleCpuIds : Nat) (s : KmemCache) (pow : PowAlign s.align)
    (some : 1 ≤ s.objectSize) (most : s.objectSize ≤ kmallocMaxSize) :
    ∃ s' accepted, calculateSizes nrPossibleCpuIds s (-1) = .ok (s', accepted) ∧
      (accepted = true →
        s'.objectSize = s.objectSize ∧ s'.align = s.align ∧ s'.align ∣ s'.size ∧
        s.objectSize + (if s.ctor then 8 else 0) ≤ s'.size ∧
        ∀ oo, oo = s'.oo ∨ oo = s'.min →
          ooOrder oo < maxOrder ∧ 1 ≤ ooObjects oo ∧ ooObjects oo ≤ maxObjsPerPage ∧
          ooObjects oo * s'.size ≤ pageSize <<< ooOrder oo ∧
          (∃ order, ooMake order s'.size = .ok oo ∧ ooOrder oo = order ∧
            Sizing.orderObjects order s'.size = .ok (ooObjects oo)) ∧
          ∀ start, pageSize <<< ooOrder oo ∣ start → start + pageSize <<< ooOrder oo ≤ 2 ^ 64 →
            (slabFreelist s' oo start).length = ooObjects oo ∧
            WellLaid s'.size s'.align (pageSize <<< ooOrder oo) start (slabFreelist s' oo start)) := by
  have bound : s.objectSize ≤ 2 ^ 22 := most
  have ⟨used, room⟩ := KmemCache.slotSize_room pow (by omega)
  have used' : s.objectSize ≤ s.sized.inuse := used
  have pos : 0 < s.slotSize := by omega
  obtain ⟨r, done, cases⟩ := (calculateSizes_spec nrPossibleCpuIds pow (Nat.ne_of_gt pos)).exists_ok
  refine ⟨r.1, r.2, done, fun accepted => ?_⟩
  rcases cases with ⟨rfl, -⟩ | ⟨oo, min, rfl, packs, packsMin⟩
  · cases accepted
  · have extra : (if s.ctor then 8 else 0) ≤ (if s.Relocates then wordSize else 0) := by
      split
      · rename_i ctor
        have relocates : s.Relocates := Or.inr ctor
        rw [if_pos relocates]
        rfl
      · exact Nat.zero_le _
    refine ⟨rfl, rfl, KmemCache.align_dvd_slotSize pow, by show _ ≤ s.slotSize; omega, ?_⟩
    have each : ∀ oo', oo' = oo ∨ oo' = min → Packs oo' s.slotSize := by
      rintro oo' (rfl | rfl)
      · exact packs
      · exact packsMin
    intro oo' which
    have packs' := each oo' which
    refine ⟨packs'.order, packs'.some, packs'.few, packs'.fits, ⟨_, packs'.made, rfl, ?_⟩, fun start block memory => ?_⟩
    · exact (orderObjects_ok packs'.order.le pos).trans (congrArg Except.ok packs'.objects.symm)
    · exact Packs.wellLaid (s := s.ordered oo min) packs' pow (KmemCache.align_dvd_slotSize pow) pos block memory

/-- A cache of a hundred bytes that asks for lines of sixty-four. -/
def hundredBytes : KmemCache where
  flags := slabHwcacheAlign
  minPartial := 0
  size := 100
  objectSize := 100
  offset := 0
  oo := ⟨0⟩
  max := ⟨0⟩
  min := ⟨0⟩
  allocflags := 0
  refcount := 0
  ctor := true
  inuse := 0
  align := 64
  useroffset := 0
  usersize := 0

theorem hundredBytes_laid_out :
    ∃ s' accepted, calculateSizes 8 hundredBytes (-1) = .ok (s', accepted) ∧
      (accepted = true → 108 ≤ s'.size ∧ 64 ∣ s'.size ∧ ooOrder s'.oo < maxOrder) := by
  have pow : PowAlign hundredBytes.align := ⟨6, by decide, rfl⟩
  obtain ⟨s', accepted, done, laid⟩ := calculate_sizes_lays_out 8 hundredBytes pow (by decide) (by decide)
  refine ⟨s', accepted, done, fun ok => ?_⟩
  obtain ⟨-, align, unit, room, orders⟩ := laid ok
  rw [align] at unit
  exact ⟨room, unit, (orders s'.oo (Or.inl rfl)).1⟩

/-! ## Slots of a cache -/

/-- The cache of the slab model that a sized cache is. -/
def KmemCache.toCache (s : KmemCache) (packs : Packs s.oo s.size) (packsMin : Packs s.min s.size) : Cache where
  size := s.size
  order := ooOrder s.oo
  minOrder := ooOrder s.min
  minPartial := s.minPartial
  fpInside := !decide s.Relocates
  objects_bounds := by
    rintro o (rfl | rfl)
    · rw [← packs.objects]
      exact ⟨packs.some, packs.few⟩
    · rw [← packsMin.objects]
      exact ⟨packsMin.some, packsMin.few⟩

end Miracle.Slub
