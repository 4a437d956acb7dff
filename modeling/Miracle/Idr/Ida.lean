import Miracle.Lib.MarkedMap

/-! # The ID allocator

An IDA keeps one bit for each id, in leaves of `IDA_BITMAP_BITS` bits that an XArray holds.  A leaf with a few low bits
is a value entry and is turned into a bitmap when a higher bit is needed.  The XArray is a map with marks; the mark
`XA_FREE_MARK` of a leaf is cleared when its bitmap is full.
-/

namespace Miracle.Ida

open BitScan

def idaBitmapBits : Nat := 1024

/-- `BITS_PER_XA_VALUE` -/
def bitsPerXaValue : Nat := 63

def enomem : Int := 12

def enospc : Int := 28

/-- `INT_MAX` -/
def intMax : Nat := 2 ^ 31 - 1

/-- An entry of the XArray: a value or a pointer to a `struct ida_bitmap`. -/
inductive Leaf where
  | value (v : BitVec 63)
  | bitmap (m : Bitmap)

def Leaf.bits : Leaf → Bitmap
  | value v => v.getLsbD
  | bitmap m => m

abbrev Xarray := MarkedMap Leaf

/-- `DEFINE_IDA` -/
def init : Xarray := MarkedMap.empty

/-! ## Allocating -/

/-- How a round of the search ends: with a return value or at the label `next`. -/
inductive Jump where
  | done (xa : Xarray) (ret : Int)
  | next (xa : Xarray) (bit : Nat)

def bitmapFull (m : Bitmap) : Bool := findNextZeroBit m idaBitmapBits 0 == idaBitmapBits

def bitmapEmpty (m : Bitmap) : Bool := findNextBit m idaBitmapBits 0 == idaBitmapBits

/-- The branch of `ida_alloc_range` for a bitmap. -/
def allocInBitmap (xa : Xarray) (index bit max : Nat) (m : Bitmap) : Jump :=
  let bit := findNextZeroBit m idaBitmapBits bit
  if index * idaBitmapBits + bit > max then .done xa (-enospc)
  else if bit = idaBitmapBits then .next xa bit
  else
    let m := setBit m bit
    let xa := xa.store index (some (.bitmap m))
    .done (if bitmapFull m then xa.clearMark index else xa) (index * idaBitmapBits + bit : Nat)

/-- The conversion of a value entry, `mem` tells whether `kzalloc` returns memory. -/
def allocConverted (mem : Bool) (xa : Xarray) (index bit max : Nat) (tmp : BitVec 63) : Jump :=
  if mem then allocInBitmap (xa.store index (some (.bitmap tmp.getLsbD))) index bit max tmp.getLsbD
  else .done xa (-enomem)

/-- The branch of `ida_alloc_range` for a value entry. -/
def allocInValue (mem : Bool) (xa : Xarray) (index bit max : Nat) (tmp : BitVec 63) : Jump :=
  if bit < bitsPerXaValue then
    let bit := findNextZeroBit tmp.getLsbD bitsPerXaValue bit
    if index * idaBitmapBits + bit > max then .done xa (-enospc)
    else if bit < bitsPerXaValue then
      .done (xa.store index (some (.value (tmp ||| 1#63 <<< bit)))) (index * idaBitmapBits + bit : Nat)
    else allocConverted mem xa index bit max tmp
  else allocConverted mem xa index bit max tmp

/-- `ida_alloc_range` once an index has been found. -/
def allocRound (mem : Bool) (xa : Xarray) (index bit max : Nat) : Jump :=
  match xa.entry index with
  | some (.value tmp) => allocInValue mem xa index bit max tmp
  | some (.bitmap m) => allocInBitmap xa index bit max m
  | none =>
      if bit < bitsPerXaValue then
        .done (xa.store index (some (.value (1#63 <<< bit)))) (index * idaBitmapBits + bit : Nat)
      else if mem then
        .done (xa.store index (some (.bitmap (setBit (fun _ => false) bit)))) (index * idaBitmapBits + bit : Nat)
      else .done xa (-enomem)

/-- The rounds of `ida_alloc_range` from the label `next` on; `none` while it is still running.  `start` is the first
    index that `xas_find_marked` looks at. -/
def allocLoop (mem : Bool) (min max : Nat) : Nat → Xarray → Nat → Nat → Option (Xarray × Int)
  | 0, _, _, _ => none
  | rounds + 1, xa, start, bit =>
      let index := xa.findMarked start (max / idaBitmapBits)
      let bit := if index > min / idaBitmapBits then 0 else bit
      if index * idaBitmapBits + bit > max then some (xa, -enospc)
      else match allocRound mem xa index bit max with
        | .done xa ret => some (xa, ret)
        -- the entry has been processed
        | .next xa bit => allocLoop mem min max rounds xa (index + 1) bit

/-- `(int)max < 0` means `INT_MAX`. -/
def upperBound (max : BitVec 32) : Nat := if max.toInt < 0 then intMax else max.toNat

/-- `ida_alloc_range` -/
def idaAllocRange (mem : Bool) (rounds : Nat) (xa : Xarray) (min max : BitVec 32) : Option (Xarray × Int) :=
  if min.toInt < 0 then some (xa, -enospc)
  else allocLoop mem min.toNat (upperBound max) rounds xa (min.toNat / idaBitmapBits) (min.toNat % idaBitmapBits)

/-! ## Freeing -/

/-- `ida_free`; `none` at the `BUG_ON` and where a missing bitmap is read.  An id that is not allocated only warns. -/
def idaFree (xa : Xarray) (id : BitVec 32) : Option Xarray :=
  let index := id.toNat / idaBitmapBits
  let bit := id.toNat % idaBitmapBits
  if id.toInt < 0 then none
  else match xa.entry index with
    | none => none
    | some (.value v) =>
        if bit ≥ bitsPerXaValue then some xa
        else if v.getLsbD bit = false then some xa
        else
          let v := v &&& ~~~(1#63 <<< bit)
          if v = 0 then some (xa.store index none) else some (xa.store index (some (.value v)))
    | some (.bitmap m) =>
        if m bit = false then some xa
        else
          let m := bitmapClear m bit 1
          let xa := (xa.store index (some (.bitmap m))).setMark index
          if bitmapEmpty m then some (xa.store index none) else some xa

/-! ## The set of ids -/

/-- Bit `b` of the leaf at index `i` is set. -/
def Has (xa : Xarray) (i b : Nat) : Prop := ∃ leaf, xa.entry i = some leaf ∧ leaf.bits b = true

/-- The ids whose bits are set. -/
def ids (xa : Xarray) : Set Nat := {id | Has xa (id / idaBitmapBits) (id % idaBitmapBits)}

/-- All bits of the leaf are set, which needs a bitmap. -/
def Leaf.Full (leaf : Leaf) : Prop := ∀ b < idaBitmapBits, leaf.bits b = true

/-- A bit of the leaf is set. -/
def Leaf.Used (leaf : Leaf) : Prop := ∃ b < idaBitmapBits, leaf.bits b = true

structure Ok (xa : Xarray) : Prop where
  mark : ∀ i, xa.mark i = false ↔ ∃ leaf, xa.entry i = some leaf ∧ leaf.Full
  used : ∀ i leaf, xa.entry i = some leaf → leaf.Used
  small : ∀ id ∈ ids xa, id ≤ intMax

theorem id_split {i b : Nat} (lt : b < idaBitmapBits) :
    (i * idaBitmapBits + b) / idaBitmapBits = i ∧ (i * idaBitmapBits + b) % idaBitmapBits = b := by
  simp only [idaBitmapBits] at *
  omega

theorem id_join (id : Nat) : id / idaBitmapBits * idaBitmapBits + id % idaBitmapBits = id := by
  rw [Nat.mul_comm]
  exact Nat.div_add_mod id idaBitmapBits

theorem mod_lt (id : Nat) : id % idaBitmapBits < idaBitmapBits := Nat.mod_lt _ (by decide)

theorem mem_ids {xa : Xarray} {i b : Nat} (lt : b < idaBitmapBits) : i * idaBitmapBits + b ∈ ids xa ↔ Has xa i b := by
  rw [ids, Set.mem_ofPred_eq, (id_split lt).1, (id_split lt).2]

/-! ## Leaves -/

theorem not_full_value (v : BitVec 63) : ¬ (Leaf.value v).Full := by
  intro full
  have last := full 63 (by decide)
  rw [Leaf.bits, BitVec.getLsbD_of_ge _ _ (by decide)] at last
  cases last

theorem used_value_iff {v : BitVec 63} : (Leaf.value v).Used ↔ v ≠ 0 := by
  constructor
  · rintro ⟨b, -, set⟩ rfl
    simp [Leaf.bits] at set
  · intro nonzero
    by_contra unused
    apply nonzero
    apply BitVec.eq_of_getLsbD_eq
    intro b lt
    have zero : BitVec.getLsbD (0 : BitVec 63) b = false := BitVec.getLsbD_zero
    rw [zero]
    by_contra set
    exact unused ⟨b, lt.trans (by decide), Bool.eq_true_of_not_eq_false set⟩

theorem bitmapFull_iff {m : Bitmap} : bitmapFull m = true ↔ (Leaf.bitmap m).Full := by
  obtain ⟨upper, -, found, before⟩ := findNext_spec m false idaBitmapBits 0
  rw [bitmapFull, beq_iff_eq, findNextZeroBit]
  constructor
  · intro all b lt
    exact before b (Nat.zero_le b) (lt.trans_eq all.symm)
  · intro full
    by_contra short
    have lt := Nat.lt_of_le_of_ne upper short
    have set : m (findNext m false idaBitmapBits 0) = true := full _ lt
    exact absurd (found lt) (by simp [set])

theorem bitmapEmpty_iff {m : Bitmap} : bitmapEmpty m = true ↔ ¬ (Leaf.bitmap m).Used := by
  obtain ⟨upper, -, found, before⟩ := findNext_spec m true idaBitmapBits 0
  rw [bitmapEmpty, beq_iff_eq, findNextBit]
  constructor
  · rintro all ⟨b, lt, set⟩
    have clear := before b (Nat.zero_le b) (lt.trans_eq all.symm)
    rw [Leaf.bits] at set
    simp [set] at clear
  · intro unused
    by_contra short
    have lt := Nat.lt_of_le_of_ne upper short
    exact unused ⟨_, lt, found lt⟩

/-- `tmp |= 1UL << bit` -/
theorem bits_or {v : BitVec 63} {bit b : Nat} (lt : bit < 63) :
    (v ||| 1#63 <<< bit).getLsbD b = true ↔ b = bit ∨ v.getLsbD b = true := by
  rw [BitVec.getLsbD_or, BitVec.getLsbD_shiftLeft, BitVec.getLsbD_one]
  by_cases same : b = bit
  · subst same
    simp [lt]
  · have other : ¬ b - bit = 0 ∨ b < bit := by omega
    rcases other with other | other
    · simp [other, same]
    · simp [other, same]

/-- `v &= ~(1UL << bit)` -/
theorem bits_and_not {v : BitVec 63} {bit b : Nat} (lt : bit < 63) :
    (v &&& ~~~(1#63 <<< bit)).getLsbD b = true ↔ b ≠ bit ∧ v.getLsbD b = true := by
  rw [BitVec.getLsbD_and, BitVec.getLsbD_not, BitVec.getLsbD_shiftLeft, BitVec.getLsbD_one]
  by_cases inside : b < 63
  · by_cases same : b = bit
    · subst same
      simp [lt]
    · have other : ¬ b - bit = 0 ∨ b < bit := by omega
      rcases other with other | other
      · simp [other, same, inside]
      · simp [other, same, inside]
  · have out : v.getLsbD b = false := BitVec.getLsbD_of_ge _ _ (Nat.not_lt.mp inside)
    simp [out]

theorem bits_one {bit b : Nat} (lt : bit < 63) : (1#63 <<< bit).getLsbD b = true ↔ b = bit := by
  have or := @bits_or 0 bit b lt
  simpa using or

theorem setBit_iff {m : Bitmap} {bit b : Nat} : setBit m bit b = true ↔ b = bit ∨ m b = true := by
  rw [setBit, bitmapSet_true]
  have same : bit ≤ b ∧ b < bit + 1 ↔ b = bit := by omega
  rw [same]

theorem clearBit_iff {m : Bitmap} {bit b : Nat} : bitmapClear m bit 1 b = true ↔ b ≠ bit ∧ m b = true := by
  rw [bitmapClear_true]
  have same : bit ≤ b ∧ b < bit + 1 ↔ b = bit := by omega
  rw [same]

end Miracle.Ida
