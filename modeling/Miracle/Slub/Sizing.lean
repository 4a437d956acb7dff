import Miracle.Lib.Word
import Miracle.Slub.Basic

/-! # Slab sizing

`calculate_sizes` rounds the size of an object and chooses the order of the slabs: it looks
for an order that wastes little, accepting more waste and then fewer objects until one fits.
The arithmetic is on 32 bits and a division by zero is an error.
-/

namespace Miracle.Slub

def pageSize : Nat := 4096

/-- `MAX_ORDER`. -/
def maxOrder : Nat := 11

/-- `1UL << KMALLOC_SHIFT_MAX`. -/
def kmallocMaxSize : Nat := 1 <<< (maxOrder + 12 - 1)

def slubMinOrder : Nat := 0

/-- `PAGE_ALLOC_COSTLY_ORDER`. -/
def slubMaxOrder : Nat := 3

def slubMinObjects : Nat := 0

def ooShift : Nat := 16

def maxObjsPerPage : Nat := 32767

/-- `sizeof(void *)`. -/
def wordSize : Nat := 8

abbrev SlabFlags := BitVec 64

def slabConsistencyChecks : SlabFlags := 0x100
def slabPoison : SlabFlags := 0x800
def slabHwcacheAlign : SlabFlags := 0x2000
def slabCacheDma : SlabFlags := 0x4000
def slabStoreUser : SlabFlags := 0x10000
def slabPanic : SlabFlags := 0x40000

/-- `GFP_DMA`. -/
def gfpDma : BitVec 32 := 1

/-- What stops the code: a division by zero, a loop that does not end and `panic`. -/
inductive Fault where
  | divideByZero
  | endless
  | panic
  deriving DecidableEq, Repr

/-- `struct kmem_cache_order_objects`. -/
structure OrderObjects where
  x : Nat
  deriving DecidableEq, Repr

/-- `struct kmem_cache`: the fields that creation and merging use.  `ctor` says that there is
    a constructor. -/
structure KmemCache where
  flags : SlabFlags
  minPartial : Nat
  size : Nat
  objectSize : Nat
  offset : Nat
  oo : OrderObjects
  max : OrderObjects
  min : OrderObjects
  allocflags : BitVec 32
  refcount : Int
  ctor : Bool
  inuse : Nat
  align : Nat
  useroffset : Nat
  usersize : Nat
  deriving DecidableEq, Repr

/-- `ALIGN` on an `unsigned int`. -/
def align32 (x a : Nat) : Nat := alignWord 32 x a

/-- `__get_order`; on a size of zero the subtraction wraps. -/
def getOrder (size : Nat) : Nat := fls (u64Sub size 1 >>> 12)

namespace Sizing

def udiv (a b : Nat) : Except Fault Nat := if b = 0 then .error .divideByZero else .ok (a / b)

def umod (a b : Nat) : Except Fault Nat := if b = 0 then .error .divideByZero else .ok (a % b)

def orderObjects (order size : Nat) : Except Fault Nat := udiv (u32 (pageSize <<< order)) size

def ooMake (order size : Nat) : Except Fault OrderObjects := do
  let objects ← orderObjects order size
  return ⟨u32 (u32 (order <<< ooShift) + objects)⟩

def ooOrder (oo : OrderObjects) : Nat := oo.x >>> ooShift

def ooObjects (oo : OrderObjects) : Nat := oo.x &&& (1 <<< ooShift - 1)

/-- The loop of `slab_order` over the orders up to `max_order`, with the number of rounds left. -/
def slabOrderLoop (size fractLeftover : Nat) : Nat → Nat → Except Fault Nat
  | 0, order => return order
  | n + 1, order => do
      let slabSize := u32 (pageSize <<< order)
      let rem ← umod slabSize size
      let waste ← udiv slabSize fractLeftover
      if rem ≤ waste then return order
      else slabOrderLoop size fractLeftover n (order + 1)

def slabOrder (size minObjects maxOrder fractLeftover : Nat) : Except Fault Nat := do
  let objects ← orderObjects slubMinOrder size
  if maxObjsPerPage < objects then
    return u32 (getOrder (u32 (size * maxObjsPerPage)) + (2 ^ 32 - 1))
  else
    let order := max slubMinOrder (getOrder (u32 (minObjects * size)))
    slabOrderLoop size fractLeftover (maxOrder + 1 - order) order

/-- `while (fraction >= 4)`: accept more and more waste. -/
def tryFractions (size minObjects fraction : Nat) : Except Fault (Option Nat) :=
  if 4 ≤ fraction then do
    let order ← slabOrder size minObjects slubMaxOrder fraction
    if order ≤ slubMaxOrder then return some order
    else tryFractions size minObjects (fraction / 2)
  else return none
termination_by fraction

/-- `while (min_objects > 1)`: accept fewer and fewer objects. -/
def tryMinObjects (size : Nat) : Nat → Except Fault (Option Nat)
  | n + 2 => do
      match ← tryFractions size (n + 2) 16 with
      | some order => return some order
      | none => tryMinObjects size (n + 1)
  | _ => return none

/-- `calculate_order`; `none` is `-ENOSYS`. -/
def calculateOrder (nrPossibleCpuIds size : Nat) : Except Fault (Option Nat) := do
  let minObjects := if slubMinObjects = 0 then u32 (4 * (fls nrPossibleCpuIds + 1)) else slubMinObjects
  let maxObjects ← orderObjects slubMaxOrder size
  match ← tryMinObjects size (min minObjects maxObjects) with
  | some order => return some order
  | none => do
      -- one object
      let order ← slabOrder size 1 slubMaxOrder 1
      if order ≤ slubMaxOrder then return some order
      else
        let order ← slabOrder size 1 maxOrder 1
        if order < maxOrder then return some order else return none

end Sizing

open Sizing in
/-- `calculate_sizes`, with the value that it returns. -/
def calculateSizes (nrPossibleCpuIds : Nat) (s : KmemCache) (forcedOrder : Int) : Except Fault (KmemCache × Bool) := do
  let size := align32 s.objectSize wordSize
  let s := { s with inuse := size }
  let relocate := s.flags &&& slabPoison ≠ 0 ∨ s.ctor = true
  let s := { s with offset := if relocate then size else s.offset }
  let size := if relocate then u32 (size + wordSize) else size
  let size := align32 size s.align
  let s := { s with size := size }
  let order ← if 0 ≤ forcedOrder then pure (some forcedOrder.toNat) else calculateOrder nrPossibleCpuIds size
  match order with
  | none => return (s, false)
  | some order =>
      let s := { s with allocflags := if s.flags &&& slabCacheDma ≠ 0 then gfpDma else 0 }
      let oo ← ooMake order size
      let min ← ooMake (getOrder size) size
      let s := { s with oo := oo, min := min }
      let s := { s with max := if ooObjects s.max < ooObjects s.oo then s.oo else s.max }
      return (s, decide (ooObjects s.oo ≠ 0))

/-- `calculate_alignment` halves the line size while the object fits in half of it. -/
def halveLine (size ralign : Nat) : Except Fault Nat :=
  if size ≤ ralign / 2 then
    -- with a size of zero the loop goes on at zero
    if ralign = 0 then .error .endless else halveLine size (ralign / 2)
  else return ralign
termination_by ralign
decreasing_by omega

/-- `ARCH_SLAB_MINALIGN`. -/
def archSlabMinalign : Nat := 8

def calculateAlignment (cacheLineSize : Nat) (flags : SlabFlags) (align size : Nat) : Except Fault Nat := do
  let align ← if flags &&& slabHwcacheAlign ≠ 0 then do
      let ralign ← halveLine size cacheLineSize
      pure (max align ralign)
    else pure align
  let align := if align < archSlabMinalign then archSlabMinalign else align
  return align32 align wordSize

/-- The loop of `allocate_slab` over the objects of a slab, with the number of rounds left. -/
def threadObjects (size : Nat) : Nat → Nat → List Nat
  | 0, p => [p]
  | n + 1, p => p :: threadObjects size n (u64 (p + size))

/-- The addresses on the freelist that `allocate_slab` threads through a slab at `start`;
    `page->objects` has 15 bits. -/
def slabFreelist (s : KmemCache) (oo : OrderObjects) (start : Nat) : List Nat :=
  let objects := Sizing.ooObjects oo % 2 ^ 15
  threadObjects s.size (objects - 1) start

/-! ## The order that `calculate_order` chooses

No division of the search has a divisor of zero.  The order holds at least one object, it is
below `MAX_ORDER`, and the objects of a slab can be counted in 15 bits.
-/

/-- The computation returns without a fault, with a result in `P`. -/
abbrev Returns {α : Type} (x : Except Fault α) (P : α → Prop) : Prop := Outcome (fun _ => False) P x

theorem getOrder_le_iff {n k : Nat} (pos : 0 < n) (word : n < 2 ^ 64) : getOrder n ≤ k ↔ n ≤ pageSize <<< k := by
  have less : u64Sub n 1 = n - 1 := u64Sub_of_le word pos
  rw [getOrder, fls_le_iff, less, Nat.shiftRight_eq_div_pow, Nat.div_lt_iff_lt_mul (by decide), pageSize, Nat.shiftLeft_eq,
    Nat.mul_comm]
  omega

theorem le_getOrder_size {n : Nat} (pos : 0 < n) (word : n < 2 ^ 64) : n ≤ pageSize <<< getOrder n :=
  (getOrder_le_iff pos word).mp le_rfl

theorem getOrder_mono {m n : Nat} (pos : 0 < m) (le : m ≤ n) (word : n < 2 ^ 64) : getOrder m ≤ getOrder n :=
  (getOrder_le_iff pos (le.trans_lt word)).mpr (le.trans (le_getOrder_size (pos.trans_le le) word))

theorem pageSize_shift_mono {j k : Nat} (le : j ≤ k) : pageSize <<< j ≤ pageSize <<< k := by
  rw [Nat.shiftLeft_eq, Nat.shiftLeft_eq]
  exact Nat.mul_le_mul_left _ (Nat.pow_le_pow_right (by decide) le)

namespace Sizing

theorem udiv_ok {a b : Nat} (pos : 0 < b) : udiv a b = .ok (a / b) := by
  simp [udiv, Nat.ne_of_gt pos]

theorem umod_ok {a b : Nat} (pos : 0 < b) : umod a b = .ok (a % b) := by
  simp [umod, Nat.ne_of_gt pos]

/-- The shift does not wrap for the orders in use. -/
theorem orderObjects_ok {order size : Nat} (small : order ≤ maxOrder) (pos : 0 < size) :
    orderObjects order size = .ok (Slub.orderObjects order size) := by
  have bound : pageSize <<< order ≤ pageSize <<< maxOrder := pageSize_shift_mono small
  have word : pageSize <<< order < 2 ^ 32 := bound.trans_lt (by decide)
  rw [orderObjects, u32_of_lt word, udiv_ok pos]
  rfl

variable {size : Nat}

theorem slabOrderLoop_spec {fract : Nat} (pos : 0 < size) (fraction : 0 < fract) (n order : Nat) :
    Returns (slabOrderLoop size fract n order) (fun result => order ≤ result) := by
  induction n generalizing order with
  | zero => exact le_rfl
  | succ n ih =>
      simp only [slabOrderLoop, umod_ok pos, udiv_ok fraction, ok_bind]
      split
      · exact le_rfl
      · exact (ih (order + 1)).mono fun result above => by omega

/-- Any waste is accepted for a single object. -/
theorem slabOrderLoop_one (pos : 0 < size) (n order : Nat) : slabOrderLoop size 1 n order = .ok order := by
  cases n with
  | zero => rfl
  | succ n =>
      have fits : u32 (pageSize <<< order) % size ≤ u32 (pageSize <<< order) / 1 := by
        rw [Nat.div_one]
        exact Nat.mod_le _ _
      simp only [slabOrderLoop, umod_ok pos, udiv_ok Nat.one_pos, ok_bind, if_pos fits, pure_eq_ok]

/-- The first test of `slab_order` never fires: a page does not have that many objects. -/
theorem slabOrder_eq {minObjects limit fract : Nat} (pos : 0 < size) (word : minObjects * size < 2 ^ 32) :
    slabOrder size minObjects limit fract =
      slabOrderLoop size fract (limit + 1 - getOrder (minObjects * size)) (getOrder (minObjects * size)) := by
  have few : ¬maxObjsPerPage < Slub.orderObjects slubMinOrder size := by
    have le : Slub.orderObjects slubMinOrder size ≤ 4096 := Nat.div_le_self _ _
    unfold maxObjsPerPage
    omega
  have above : max slubMinOrder (getOrder (minObjects * size)) = getOrder (minObjects * size) := Nat.zero_max _
  have page : orderObjects slubMinOrder size = .ok (Slub.orderObjects slubMinOrder size) :=
    orderObjects_ok (Nat.zero_le maxOrder) pos
  rw [slabOrder, page, ok_bind, if_neg few, u32_of_lt word]
  simp only [above]

theorem slabOrder_spec {minObjects limit fract : Nat} (pos : 0 < size) (word : minObjects * size < 2 ^ 32)
    (some : 0 < minObjects) (fraction : 0 < fract) :
    Returns (slabOrder size minObjects limit fract) (fun result => getOrder size ≤ result) := by
  rw [slabOrder_eq pos word]
  have more : size ≤ minObjects * size := Nat.le_mul_of_pos_left _ some
  have base : getOrder size ≤ getOrder (minObjects * size) := getOrder_mono pos more (by omega)
  exact (slabOrderLoop_spec pos fraction _ _).mono fun result above => base.trans above

theorem slabOrder_one {limit : Nat} (pos : 0 < size) (word : size < 2 ^ 32) :
    slabOrder size 1 limit 1 = .ok (getOrder size) := by
  rw [slabOrder_eq pos (by omega), Nat.one_mul]
  exact slabOrderLoop_one pos _ _

/-- What a chosen order guarantees. -/
def Suits (size order : Nat) : Prop :=
  getOrder size ≤ order ∧ order < maxOrder ∧ Slub.orderObjects order size ≤ maxObjsPerPage

theorem suits_costly {order : Nat} (two : 2 ≤ size) (base : getOrder size ≤ order) (small : order ≤ slubMaxOrder) :
    Suits size order := by
  refine ⟨base, Nat.lt_of_le_of_lt small (by decide), ?_⟩
  calc Slub.orderObjects order size ≤ (4096 <<< slubMaxOrder) / size :=
        Nat.div_le_div_right (pageSize_shift_mono small)
    _ ≤ (4096 <<< slubMaxOrder) / 2 := Nat.div_le_div_left two (by decide)
    _ ≤ maxObjsPerPage := by decide

/-- An object that needs more than the costly order is large. -/
theorem suits_large (pos : 0 < size) (word : size < 2 ^ 32) (large : ¬getOrder size ≤ slubMaxOrder)
    (small : getOrder size < maxOrder) : Suits size (getOrder size) := by
  rw [getOrder_le_iff pos (by omega)] at large
  refine ⟨le_rfl, small, ?_⟩
  calc Slub.orderObjects (getOrder size) size ≤ (4096 <<< maxOrder) / size :=
        Nat.div_le_div_right (pageSize_shift_mono small.le)
    _ ≤ (4096 <<< maxOrder) / (pageSize <<< slubMaxOrder) :=
        Nat.div_le_div_left (Nat.le_of_not_le large) (by decide)
    _ ≤ maxObjsPerPage := by decide

/-- The orders that a search may return, when it finds one. -/
def FoundSuits (size : Nat) (found : Option Nat) : Prop := ∀ order, found = some order → Suits size order

theorem tryFractions_spec {minObjects : Nat} (two : 2 ≤ size) (some : 0 < minObjects)
    (word : minObjects * size < 2 ^ 32) (fraction : Nat) :
    Returns (tryFractions size minObjects fraction) (FoundSuits size) := by
  induction fraction using Nat.strong_induction_on with
  | _ fraction ih =>
      unfold tryFractions
      split
      · rename_i four
        refine (slabOrder_spec (by omega) word some (by omega)).bind fun order base => ?_
        split
        · rename_i small
          intro found eq
          cases eq
          exact suits_costly two base small
        · exact ih (fraction / 2) (by omega)
      · intro found eq
        cases eq

theorem tryMinObjects_spec (two : 2 ≤ size) (n : Nat) (word : n * size < 2 ^ 32) :
    Returns (tryMinObjects size n) (FoundSuits size) := by
  induction n with
  | zero =>
      intro found eq
      cases eq
  | succ n ih =>
      cases n with
      | zero =>
          intro found eq
          cases eq
      | succ n =>
          unfold tryMinObjects
          refine (tryFractions_spec two (by omega) word 16).bind fun found suits => ?_
          cases found with
          | some order => exact suits
          | none =>
              apply ih
              have less : (n + 1) * size ≤ (n + 1 + 1) * size := Nat.mul_le_mul_right _ (by omega)
              omega

/-- The objects that a slab shall hold at least fit in the costly order. -/
theorem minObjects_word (wanted : Nat) : min wanted (Slub.orderObjects slubMaxOrder size) * size < 2 ^ 32 :=
  calc min wanted (Slub.orderObjects slubMaxOrder size) * size
      ≤ (4096 <<< slubMaxOrder) / size * size := Nat.mul_le_mul_right _ (min_le_right _ _)
    _ ≤ 4096 <<< slubMaxOrder := Nat.div_mul_le_self _ _
    _ < 2 ^ 32 := by decide

theorem calculateOrder_spec (nrPossibleCpuIds : Nat) (two : 2 ≤ size) (word : size < 2 ^ 32) :
    Returns (calculateOrder nrPossibleCpuIds size) (FoundSuits size) := by
  have pos : 0 < size := by omega
  rw [calculateOrder, orderObjects_ok (by decide : slubMaxOrder ≤ maxOrder) pos, ok_bind]
  refine (tryMinObjects_spec two _ (minObjects_word _)).bind fun found suits => ?_
  cases found with
  | some order => exact suits
  | none =>
      simp only [slabOrder_one pos word, ok_bind]
      split
      · rename_i small
        intro found eq
        cases eq
        exact suits_costly two le_rfl small
      · rename_i large
        split
        · rename_i small
          intro found eq
          cases eq
          exact suits_large pos word large small
        · intro found eq
          cases eq

/-- An object that fits in the largest block gets an order. -/
theorem calculateOrder_found (nrPossibleCpuIds : Nat) (two : 2 ≤ size) (word : size < 2 ^ 32)
    (fits : getOrder size < maxOrder) :
    Returns (calculateOrder nrPossibleCpuIds size) (fun found => found ≠ none) := by
  have pos : 0 < size := by omega
  rw [calculateOrder, orderObjects_ok (by decide : slubMaxOrder ≤ maxOrder) pos, ok_bind]
  refine (tryMinObjects_spec two _ (minObjects_word _)).bind fun found _ => ?_
  cases found with
  | some order => exact nofun
  | none =>
      simp only [slabOrder_one pos word, ok_bind, if_pos fits]
      split <;> exact nofun

end Sizing

end Miracle.Slub
