import Miracle.Crc32.Slicing

/-! # Every configuration computes the same checks

The tables, the order of bytes of the machine and the alignment of the buffer do not matter, and a
check can be continued where it stopped.
-/

namespace Miracle.Crc32

open ShiftRegister

/-! ## Little-endian checks -/

theorem bitwiseLe_eq (polynomial crc : U32) (p : List Byte) :
    bitwiseLe polynomial crc p = p.foldl (fun crc x => right.steps polynomial 8 (crc ^^^ x.setWidth 32)) crc := by
  rw [bitwiseLe, stepLe_eq]
  rfl

theorem lookupLe_eq (polynomial : U32) {n : Nat} {tab : Table} (first : ∀ i < 2 ^ n, tab 0 i = entryLe polynomial n i) :
    lookupLe n tab = right.steps polynomial n := by
  funext crc
  have inside : (crc &&& BitVec.ofNat 32 (2 ^ n - 1)).toNat < 2 ^ n := by
    have mask : (BitVec.ofNat 32 (2 ^ n - 1)).toNat < 2 ^ n := by
      rw [BitVec.toNat_ofNat]
      exact (Nat.mod_le _ _).trans_lt (Nat.sub_lt (Nat.two_pow_pos n) (by decide))
    rw [BitVec.toNat_and]
    exact Nat.and_le_right.trans_lt mask
  rw [lookupLe, first _ inside, entryLe, BitVec.ofNat_toNat, BitVec.setWidth_eq, ← right_lookup]

/-- The table of `crc32_le` for a machine with little-endian words. -/
def advanceLe (polynomial : U32) {bits : CrcBits} (sliced : bits.Sliced) : Advance (crc32initLeGeneric bits polynomial) (tableRows bits) where
  adv := right.steps polynomial 8
  xor := right.steps_xor polynomial 8
  byte r := by
    have looked := @right_lookup polynomial r 8
    rw [BitVec.xor_comm] at looked
    exact looked
  entry j row i inside := by
    rw [crc32initLeGeneric_spec polynomial sliced row inside]
    exact congrFun (Function.iterate_mul (right.step polynomial) 8 (j + 1)) _

theorem sliced_rows {bits : CrcBits} (sliced : bits.Sliced) : (if bits = .thirtyTwo then 3 else 7) < tableRows bits := by
  cases bits with
  | thirtyTwo | sixtyFour => decide
  | _ => exact absurd sliced (by decide)

theorem bodyLe_eq (polynomial : U32) {bits : CrcBits} (sliced : bits.Sliced) (crc : U32) (addr : Nat) (p : List Byte) :
    crc32Body .little bits crc addr p (crc32initLeGeneric bits polynomial) = bitwiseLe polynomial crc p := by
  rw [(advanceLe polynomial sliced).crc32Body_eq (sliced_rows sliced), bitwiseLe_eq]
  rfl

theorem tableLe_sliced (cpu : Endian) (polynomial : U32) {bits : CrcBits} (sliced : bits.Sliced) :
    crc32tableLe cpu bits polynomial = match cpu with
      | .little => crc32initLeGeneric bits polynomial
      | .big => swapped (crc32initLeGeneric bits polynomial) := by
  funext j i
  have wide : bits.toNat > 8 := sliced
  simp only [crc32tableLe, if_pos wide]
  cases cpu <;> rfl

theorem slicedLe_eq (cpu : Endian) (polynomial : U32) {bits : CrcBits} (sliced : bits.Sliced) (crc : U32) (addr : Nat) (p : List Byte) :
    cpuToLe32 cpu (crc32Body cpu bits (cpuToLe32 cpu crc) addr p (crc32tableLe cpu bits polynomial)) = bitwiseLe polynomial crc p := by
  rw [tableLe_sliced cpu polynomial sliced]
  cases cpu with
  | little => exact bodyLe_eq polynomial sliced crc addr p
  | big =>
      simp only [cpuToLe32]
      rw [crc32Body_big, bswap_bswap, bswap_bswap, swapped_swapped]
      exact bodyLe_eq polynomial sliced crc addr p

/-- `crc32_le_generic` with its table. -/
theorem crc32LeGeneric_eq (cpu : Endian) (bits : CrcBits) (polynomial crc : U32) (addr : Nat) (p : List Byte) :
    crc32LeGeneric cpu bits crc addr p (crc32tableLe cpu bits polynomial) polynomial = bitwiseLe polynomial crc p := by
  have lookup (bits : CrcBits) (narrow : ¬ bits.toNat > 8) :
      lookupLe bits.width (crc32tableLe cpu bits polynomial) = right.steps polynomial bits.width := by
    refine lookupLe_eq polynomial fun i inside => ?_
    rw [← crc32initLeGeneric_zero polynomial inside]
    exact if_neg narrow
  cases bits with
  | one => rfl
  | two =>
      have table : lookupLe 2 (crc32tableLe cpu .two polynomial) = right.steps polynomial 2 := lookup .two (by decide)
      rw [crc32LeGeneric, table, bitwiseLe_eq]
      exact congrArg (List.foldl · crc p) (funext fun _ => funext fun _ => (congrFun (Function.iterate_mul (right.step polynomial) 2 4) _).symm)
  | four =>
      have table : lookupLe 4 (crc32tableLe cpu .four polynomial) = right.steps polynomial 4 := lookup .four (by decide)
      rw [crc32LeGeneric, table, bitwiseLe_eq]
      exact congrArg (List.foldl · crc p) (funext fun _ => funext fun _ => (congrFun (Function.iterate_mul (right.step polynomial) 4 2) _).symm)
  | eight =>
      have table : lookupLe 8 (crc32tableLe cpu .eight polynomial) = right.steps polynomial 8 := lookup .eight (by decide)
      rw [crc32LeGeneric, table, bitwiseLe_eq]
  | thirtyTwo => exact slicedLe_eq cpu polynomial (by decide) crc addr p
  | sixtyFour => exact slicedLe_eq cpu polynomial (by decide) crc addr p

/-! ## Big-endian checks -/

theorem bitwiseBe_eq (polynomial crc : U32) (p : List Byte) :
    bitwiseBe polynomial crc p = p.foldl (fun crc x => left.steps polynomial 8 (crc ^^^ topByte x)) crc := by
  rw [bitwiseBe, stepBe_eq]
  rfl

theorem lookupBe_eq (polynomial : U32) {n : Nat} {tab : Table} (first : ∀ i < 2 ^ n, tab 0 i = entryBe polynomial n i) (small : n ≤ 32) :
    lookupBe n tab = left.steps polynomial n := by
  funext crc
  have inside : (crc >>> (32 - n)).toNat < 2 ^ n := by
    have bound := crc.isLt
    have split : 2 ^ 32 = 2 ^ n * 2 ^ (32 - n) := by
      rw [← pow_add]
      congr 1
      omega
    rw [BitVec.toNat_ushiftRight, Nat.shiftRight_eq_div_pow, Nat.div_lt_iff_lt_mul (Nat.two_pow_pos _), ← split]
    exact bound
  rw [lookupBe, first _ inside, entryBe, BitVec.ofNat_toNat, BitVec.setWidth_eq, ← left_lookup polynomial crc small]

theorem bswap_byteWord (x : Byte) : bswap (x.setWidth 32) = topByte x := by
  apply BitVec.eq_of_getLsbD_eq
  intro i inside
  rw [getLsbD_bswap _ inside, topByte, BitVec.getLsbD_shiftLeft, BitVec.getLsbD_setWidth, BitVec.getLsbD_setWidth]
  by_cases top : i < 24
  · rw [BitVec.getLsbD_of_ge x _ (by omega), decide_eq_true top]
    simp
  · have place : 8 * (3 - i / 8) + i % 8 = i - 24 := by omega
    have below : i - 24 < 32 := by omega
    rw [place, decide_eq_false top, decide_eq_true inside, decide_eq_true below]
    rfl

theorem bswap_and_byte (r : U32) : bswap (r &&& 0xff) = bswap r >>> 24 <<< 24 := by
  apply BitVec.eq_of_getLsbD_eq
  intro i inside
  rw [getLsbD_bswap _ inside, BitVec.getLsbD_and, getLsbD_byteMask, BitVec.getLsbD_shiftLeft, BitVec.getLsbD_ushiftRight]
  by_cases low : i < 24
  · have high : ¬ 8 * (3 - i / 8) + i % 8 < 8 := by omega
    rw [decide_eq_false high, Bool.and_false, decide_eq_true low]
    simp
  · have place : 24 + (i - 24) = i := by omega
    have below : 8 * (3 - i / 8) + i % 8 < 8 := by omega
    rw [place, getLsbD_bswap _ inside, decide_eq_true below, decide_eq_true inside, decide_eq_false low, Bool.and_true]
    rfl

/-- What a byte becomes in swapped words. -/
def stepsSwapped (n : Nat) (r : U32) : U32 := bswap (left.steps crc32PolyBe n (bswap r))

theorem stepsSwapped_iterate (j : Nat) (r : U32) : (stepsSwapped 8)^[j] r = stepsSwapped (8 * j) r := by
  induction j with
  | zero => exact (bswap_bswap r).symm
  | succ j ih =>
      rw [Function.iterate_succ_apply', ih, stepsSwapped, stepsSwapped, bswap_bswap, ← left.steps_add, Nat.add_comm]
      rfl

/-- The table of `crc32_be`, with its words swapped. -/
def advanceBe {bits : CrcBits} (sliced : bits.Sliced) : Advance (swapped (crc32initBe bits)) (tableRows bits) where
  adv := stepsSwapped 8
  xor a b := by rw [stepsSwapped, bswap_xor, left.steps_xor, bswap_xor]; rfl
  byte r := by
    have moved : bswap (bswap r <<< 8) = r >>> 8 := by rw [bswap_shiftLeft, bswap_bswap]
    have looked := @left_lookup crc32PolyBe (bswap r) 8 (by decide)
    rw [stepsSwapped, looked, bswap_xor, moved, BitVec.xor_comm, stepsSwapped, bswap_and_byte]
  entry j row i inside := by
    have word : BitVec.ofNat 32 i = (BitVec.ofNat 8 i).setWidth 32 := by
      apply BitVec.eq_of_toNat_eq
      rw [BitVec.toNat_setWidth, BitVec.toNat_ofNat, BitVec.toNat_ofNat]
      omega
    have byte : bswap (BitVec.ofNat 32 i) = BitVec.ofNat 32 i <<< 24 := by
      rw [word]
      exact bswap_byteWord _
    rw [stepsSwapped_iterate, stepsSwapped, byte, ← crc32initBe_spec sliced row inside]
    rfl

theorem bodyBe_eq {bits : CrcBits} (sliced : bits.Sliced) (crc : U32) (addr : Nat) (p : List Byte) :
    bswap (crc32Body .little bits (bswap crc) addr p (swapped (crc32initBe bits))) = bitwiseBe crc32PolyBe crc p := by
  rw [(advanceBe sliced).crc32Body_eq (sliced_rows sliced), bitwiseBe_eq]
  induction p generalizing crc with
  | nil => exact bswap_bswap crc
  | cons x p ih =>
      have fed : (advanceBe sliced).feed (bswap crc) x = bswap (left.steps crc32PolyBe 8 (crc ^^^ topByte x)) := by
        change stepsSwapped 8 (bswap crc ^^^ x.setWidth 32) = _
        rw [stepsSwapped, bswap_xor, bswap_bswap, bswap_byteWord]
      rw [List.foldl_cons, List.foldl_cons, fed, ih]

theorem slicedBe_eq (cpu : Endian) {bits : CrcBits} (sliced : bits.Sliced) (crc : U32) (addr : Nat) (p : List Byte) :
    cpuToBe32 cpu (crc32Body cpu bits (cpuToBe32 cpu crc) addr p (crc32tableBe cpu bits)) = bitwiseBe crc32PolyBe crc p := by
  have table : crc32tableBe cpu bits = match cpu with
      | .little => swapped (crc32initBe bits)
      | .big => crc32initBe bits := by
    funext j i
    have wide : bits.toNat > 8 := sliced
    simp only [crc32tableBe, if_pos wide]
    cases cpu <;> rfl
  rw [table]
  cases cpu with
  | little => exact bodyBe_eq sliced crc addr p
  | big =>
      simp only [cpuToBe32]
      rw [crc32Body_big]
      exact bodyBe_eq sliced crc addr p

/-- `crc32_be_generic` with its table. -/
theorem crc32BeGeneric_eq (cpu : Endian) (bits : CrcBits) (crc : U32) (addr : Nat) (p : List Byte) :
    crc32BeGeneric cpu bits crc addr p (crc32tableBe cpu bits) crc32PolyBe = bitwiseBe crc32PolyBe crc p := by
  have lookup (bits : CrcBits) (narrow : ¬ bits.toNat > 8) :
      lookupBe bits.width (crc32tableBe cpu bits) = left.steps crc32PolyBe bits.width := by
    refine lookupBe_eq crc32PolyBe (fun i inside => ?_) (by cases bits <;> decide)
    rw [← crc32initBe_zero inside]
    exact if_neg narrow
  cases bits with
  | one => rfl
  | two =>
      have table : lookupBe 2 (crc32tableBe cpu .two) = left.steps crc32PolyBe 2 := lookup .two (by decide)
      rw [crc32BeGeneric, table, bitwiseBe_eq]
      exact congrArg (List.foldl · crc p) (funext fun _ => funext fun _ => (congrFun (Function.iterate_mul (left.step crc32PolyBe) 2 4) _).symm)
  | four =>
      have table : lookupBe 4 (crc32tableBe cpu .four) = left.steps crc32PolyBe 4 := lookup .four (by decide)
      rw [crc32BeGeneric, table, bitwiseBe_eq]
      exact congrArg (List.foldl · crc p) (funext fun _ => funext fun _ => (congrFun (Function.iterate_mul (left.step crc32PolyBe) 4 2) _).symm)
  | eight =>
      have table : lookupBe 8 (crc32tableBe cpu .eight) = left.steps crc32PolyBe 8 := lookup .eight (by decide)
      rw [crc32BeGeneric, table, bitwiseBe_eq]
  | thirtyTwo => exact slicedBe_eq cpu (by decide) crc addr p
  | sixtyFour => exact slicedBe_eq cpu (by decide) crc addr p

/-! ## All checks -/

theorem bitwiseLe_append (polynomial crc : U32) (a b : List Byte) :
    bitwiseLe polynomial crc (a ++ b) = bitwiseLe polynomial (bitwiseLe polynomial crc a) b := List.foldl_append

theorem bitwiseBe_append (polynomial crc : U32) (a b : List Byte) :
    bitwiseBe polynomial crc (a ++ b) = bitwiseBe polynomial (bitwiseBe polynomial crc a) b := List.foldl_append

/-- The checks are the loops over single bits for their polynomials, and they can be continued. -/
theorem checks_bitwise (cpu : Endian) (bits : CrcBits) :
    (∀ crc addr p, crc32Le cpu bits crc addr p = bitwiseLe crc32PolyLe crc p ∧ crc32cLe cpu bits crc addr p = bitwiseLe crc32cPolyLe crc p ∧
      crc32Be cpu bits crc addr p = bitwiseBe crc32PolyBe crc p) ∧
    ∀ seed addr a addr' b addr'',
      crc32Le cpu bits (crc32Le cpu bits seed addr a) addr' b = crc32Le cpu bits seed addr'' (a ++ b) ∧
      crc32cLe cpu bits (crc32cLe cpu bits seed addr a) addr' b = crc32cLe cpu bits seed addr'' (a ++ b) ∧
      crc32Be cpu bits (crc32Be cpu bits seed addr a) addr' b = crc32Be cpu bits seed addr'' (a ++ b) := by
  have le (crc addr p) : crc32Le cpu bits crc addr p = bitwiseLe crc32PolyLe crc p := crc32LeGeneric_eq cpu bits crc32PolyLe crc addr p
  have cle (crc addr p) : crc32cLe cpu bits crc addr p = bitwiseLe crc32cPolyLe crc p := crc32LeGeneric_eq cpu bits crc32cPolyLe crc addr p
  have be (crc addr p) : crc32Be cpu bits crc addr p = bitwiseBe crc32PolyBe crc p := crc32BeGeneric_eq cpu bits crc addr p
  refine ⟨fun crc addr p => ⟨le crc addr p, cle crc addr p, be crc addr p⟩, fun seed addr a addr' b addr'' => ?_⟩
  simp only [le, cle, be, bitwiseLe_append, bitwiseBe_append, and_self]

/-! ## Combination of checks

`crc32_generic_shift` appends zero bytes by squaring a power of x.  A check is multiplied by a
power of x exactly when single bits advance it that far.
-/

open ShiftRegister

/-- The rounds of `gf2_multiply` that are left. -/
def multiplyLoop (y modulus : U32) : Nat → U32 → U32 → U32
  | 0, _, product => product
  | i + 1, x, product =>
      let product := stepLe modulus product
      let x := x >>> 1
      multiplyLoop y modulus i x (product ^^^ (if x &&& 1 ≠ 0 then y else 0))

/-- `gf2_multiply`. -/
def gf2Multiply (x y modulus : U32) : U32 := multiplyLoop y modulus 31 x (if x &&& 1 ≠ 0 then y else 0)

/-- The loop of `crc32_generic_shift`. -/
def shiftLoop (polynomial : U32) (len : Nat) (power crc : U32) : U32 :=
  let crc := if len % 2 ≠ 0 then gf2Multiply crc power polynomial else crc
  if len / 2 = 0 then crc else shiftLoop polynomial (len / 2) (gf2Multiply power power polynomial) crc
termination_by len
decreasing_by omega

/-- `crc32_generic_shift`. -/
def crc32GenericShift (crc : U32) (len : Nat) (polynomial : U32) : U32 :=
  let crc := (stepLe polynomial)^[8 * (len % 4)] crc
  if len / 4 = 0 then crc else shiftLoop polynomial (len / 4) polynomial crc

/-- `crc32_le_shift`. -/
def crc32LeShift (crc : U32) (len : Nat) : U32 := crc32GenericShift crc len crc32PolyLe

/-- `__crc32c_le_shift`. -/
def crc32cLeShift (crc : U32) (len : Nat) : U32 := crc32GenericShift crc len crc32cPolyLe

/-! ## Multiplication -/

/-- The representation of x to the power 0. -/
def unit : U32 := 0x80000000

variable (polynomial : U32)

theorem unit_bit (n : Nat) (x : U32) :
    (if x &&& 1 ≠ 0 then right.steps polynomial n unit else 0) = right.steps polynomial n (if x.getLsbD 0 then unit else 0) := by
  have low : x &&& 1 = (BitVec.ofBool (x.getLsbD 0)).setWidth 32 := BitVec.and_one_eq_setWidth_ofBool_getLsbD
  rw [low]
  cases x.getLsbD 0 with
  | false => exact (right.steps_zero polynomial n).symm
  | true => rfl

theorem getLsbD_unitIf (c : Bool) (j : Nat) : (if c then unit else 0).getLsbD j = (c && decide (j = 31)) := by
  have top : unit = BitVec.twoPow 32 31 := by decide
  cases c with
  | false => simp
  | true =>
      rw [if_pos rfl, top, BitVec.getLsbD_twoPow]
      exact decide_eq_decide.mpr eq_comm

/-- The bits that have been added, at the top. -/
theorem top_bits (x : U32) {i : Nat} (less : i < 31) : x <<< (i + 1) >>> 1 ^^^ (if (x >>> (31 - i)).getLsbD 0 then unit else 0) = x <<< i := by
  apply BitVec.eq_of_getLsbD_eq
  intro j inside
  rw [BitVec.getLsbD_xor, getLsbD_unitIf, BitVec.getLsbD_ushiftRight, BitVec.getLsbD_ushiftRight, BitVec.getLsbD_shiftLeft, BitVec.getLsbD_shiftLeft]
  by_cases last : j = 31
  · subst last
    have within : ¬ 31 < i := by omega
    simp [within]
  · have inner : 1 + j < 32 := by omega
    have same : 1 + j - (i + 1) = j - i := by omega
    by_cases moved : j < i
    · have below : 1 + j < i + 1 := by omega
      simp [last, moved, below]
    · have below : ¬ 1 + j < i + 1 := by omega
      simp [last, moved, below, same, inner, inside]

theorem multiplyLoop_steps (n : Nat) (x : U32) {i : Nat} (le : i ≤ 31) :
    multiplyLoop (right.steps polynomial n unit) polynomial i (x >>> (31 - i)) (right.steps polynomial n (x <<< i)) = right.steps polynomial n x := by
  induction i with
  | zero => simp [multiplyLoop]
  | succ i ih =>
      have moved : x >>> (31 - (i + 1)) >>> 1 = x >>> (31 - i) := by
        rw [← BitVec.shiftRight_add]
        congr 1
        omega
      have quiet : right.step polynomial (x <<< (i + 1)) = x <<< (i + 1) >>> 1 := by
        have out : (x <<< (i + 1)).getLsbD 0 = false := by simp
        change x <<< (i + 1) >>> 1 ^^^ (if (x <<< (i + 1)).getLsbD 0 then polynomial else 0) = _
        rw [out]
        exact BitVec.xor_zero
      have next : right.step polynomial (right.steps polynomial n (x <<< (i + 1))) = right.steps polynomial n (x <<< (i + 1) >>> 1) := by
        rw [right.step_steps, right.steps_succ, quiet]
      rw [multiplyLoop]
      simp only [moved, stepLe_eq, next, unit_bit]
      rw [← right.steps_xor, top_bits x (by omega)]
      exact ih (by omega)

/-- A product with a power of x. -/
theorem gf2Multiply_steps (n : Nat) (x : U32) : gf2Multiply x (right.steps polynomial n unit) polynomial = right.steps polynomial n x := by
  have first : (if x.getLsbD 0 then unit else 0) = x <<< 31 := by
    apply BitVec.eq_of_getLsbD_eq
    intro j inside
    rw [getLsbD_unitIf, BitVec.getLsbD_shiftLeft]
    by_cases last : j = 31
    · simp [last]
    · have below : j < 31 := by omega
      simp [last, below]
  rw [gf2Multiply, unit_bit, first]
  have zero : x >>> (31 - 31) = x := BitVec.ushiftRight_zero x
  have all := multiplyLoop_steps polynomial n x (le_refl 31)
  rwa [zero] at all

/-! ## Powers -/

theorem shiftLoop_steps (m : Nat) {len : Nat} (pos : 0 < len) (crc : U32) :
    shiftLoop polynomial len (right.steps polynomial m unit) crc = right.steps polynomial (m * len) crc := by
  induction len using Nat.strongRecOn generalizing m crc with
  | ind len ih =>
      have crcs : (if len % 2 ≠ 0 then gf2Multiply crc (right.steps polynomial m unit) polynomial else crc) =
          right.steps polynomial (m * (len % 2)) crc := by
        rcases Nat.mod_two_eq_zero_or_one len with even | odd
        · rw [even, if_neg (by decide), Nat.mul_zero]
          rfl
        · rw [odd, if_pos (by decide), gf2Multiply_steps, Nat.mul_one]
      rw [shiftLoop]
      simp only [crcs]
      split
      · rename_i last
        have one : len % 2 = len := by omega
        rw [one]
      · rename_i more
        have square : gf2Multiply (right.steps polynomial m unit) (right.steps polynomial m unit) polynomial = right.steps polynomial (2 * m) unit := by
          rw [gf2Multiply_steps, ← right.steps_add, Nat.two_mul]
        have sum : 2 * m * (len / 2) + m * (len % 2) = m * len := by
          conv_rhs => rw [← Nat.div_add_mod len 2]
          ring
        rw [square, ih (len / 2) (by omega) (2 * m) (by omega), ← right.steps_add, sum]

/-- The polynomial is x to the power 32. -/
theorem polynomial_eq : polynomial = right.steps polynomial 32 unit := by
  have quiet : ∀ k < 31, right.out (right.shift^[k] unit) = false := by
    intro k less
    have top : unit = BitVec.twoPow 32 31 := by decide
    have other : ¬ 31 = k := by omega
    rw [right_out_shift, top, BitVec.getLsbD_twoPow, decide_eq_false other, Bool.and_false]
  have one : right.steps polynomial 31 unit = 1 := by
    rw [right.steps_quiet polynomial quiet, right_shift_iterate]
    decide
  have last : right.step polynomial 1 = polynomial := BitVec.zero_xor
  rw [← right.step_steps polynomial 31, one, last]

theorem crc32GenericShift_steps (crc : U32) (len : Nat) : crc32GenericShift crc len polynomial = right.steps polynomial (8 * len) crc := by
  have first : (stepLe polynomial)^[8 * (len % 4)] crc = right.steps polynomial (8 * (len % 4)) crc := by
    rw [stepLe_eq]
    rfl
  rw [crc32GenericShift]
  simp only [first]
  split
  · have small : len % 4 = len := by omega
    rw [small]
  · have sum : 32 * (len / 4) + 8 * (len % 4) = 8 * len := by omega
    have loop := shiftLoop_steps polynomial 32 (by omega : 0 < len / 4) (right.steps polynomial (8 * (len % 4)) crc)
    rw [← polynomial_eq, ← right.steps_add, sum] at loop
    exact loop

/-! ## Checks of zeros and of concatenations -/

theorem bitwiseLe_zeros (crc : U32) (len : Nat) : bitwiseLe polynomial crc (List.replicate len 0) = right.steps polynomial (8 * len) crc := by
  rw [bitwiseLe_eq]
  induction len generalizing crc with
  | zero => rfl
  | succ len ih =>
      have zero : crc ^^^ (0 : Byte).setWidth 32 = crc := BitVec.xor_zero
      rw [List.replicate_succ, List.foldl_cons, zero, ih, ← right.steps_add]
      rfl

theorem bitwiseLe_split (crc : U32) (b : List Byte) :
    bitwiseLe polynomial crc b = right.steps polynomial (8 * b.length) crc ^^^ bitwiseLe polynomial 0 b := by
  simp only [bitwiseLe_eq]
  induction b generalizing crc with
  | nil => exact BitVec.xor_zero.symm
  | cons x b ih =>
      have start : (0 : U32) ^^^ x.setWidth 32 = x.setWidth 32 := BitVec.zero_xor
      rw [List.foldl_cons, List.foldl_cons, ih, ih (right.steps polynomial 8 (0 ^^^ x.setWidth 32)), start, ← right.steps_add, right.steps_xor,
        ← right.steps_add, List.length_cons, BitVec.xor_assoc]
      rfl

/-- A shift appends zero bytes, and checks of two buffers combine to the check of both. -/
theorem shift_appends_zeros (cpu : Endian) (bits : CrcBits) :
    (∀ crc len addr, crc32LeShift crc len = crc32Le cpu bits crc addr (List.replicate len 0) ∧
      crc32cLeShift crc len = crc32cLe cpu bits crc addr (List.replicate len 0)) ∧
    ∀ seed addr a b addr' addr'',
      crc32Le cpu bits seed addr (a ++ b) = crc32LeShift (crc32Le cpu bits seed addr' a) b.length ^^^ crc32Le cpu bits 0 addr'' b ∧
      crc32cLe cpu bits seed addr (a ++ b) = crc32cLeShift (crc32cLe cpu bits seed addr' a) b.length ^^^ crc32cLe cpu bits 0 addr'' b := by
  have le (crc addr p) : crc32Le cpu bits crc addr p = bitwiseLe crc32PolyLe crc p := crc32LeGeneric_eq cpu bits crc32PolyLe crc addr p
  have cle (crc addr p) : crc32cLe cpu bits crc addr p = bitwiseLe crc32cPolyLe crc p := crc32LeGeneric_eq cpu bits crc32cPolyLe crc addr p
  simp only [le, cle, crc32LeShift, crc32cLeShift, crc32GenericShift_steps, bitwiseLe_zeros, bitwiseLe_append, and_self, implies_true, true_and]
  intro seed _ a b _ _
  exact ⟨bitwiseLe_split crc32PolyLe _ b, bitwiseLe_split crc32cPolyLe _ b⟩

end Miracle.Crc32
