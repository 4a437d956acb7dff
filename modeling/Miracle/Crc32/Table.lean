import Miracle.Crc32.Basic
import Miracle.Lib.ShiftRegister

/-! # The entries of the tables

Row `j` holds what a byte becomes after `8 * (j + 1)` single bits; the rows of the smaller tables
hold what two or four bits become.
-/

namespace Miracle.Crc32

open ShiftRegister

/-! ## Single bits -/

theorem stepLe_eq (polynomial : U32) : stepLe polynomial = right.step polynomial := by
  funext crc
  have low : crc &&& 1 = (BitVec.ofBool (crc.getLsbD 0)).setWidth 32 := BitVec.and_one_eq_setWidth_ofBool_getLsbD
  have leaves : (crc &&& 1 ≠ 0) ↔ crc.getLsbD 0 = true := by
    rw [low]
    cases crc.getLsbD 0 <;> decide
  exact congrArg (crc >>> 1 ^^^ ·) (if_congr leaves rfl rfl)

theorem stepBe_eq (polynomial : U32) : stepBe polynomial = left.step polynomial := by
  funext crc
  have top : (0x80000000 : U32) = BitVec.twoPow 32 31 := by decide
  have leaves : (crc &&& 0x80000000 ≠ 0) ↔ crc.msb = true := by
    rw [top, BitVec.and_twoPow, BitVec.msb_eq_getLsbD_last]
    cases crc.getLsbD 31 <;> decide
  exact congrArg (crc <<< 1 ^^^ ·) (if_congr leaves rfl rfl)

/-- What the lowest `n` bits of `c` become. -/
theorem right_lookup (polynomial c : U32) {n : Nat} :
    right.steps polynomial n c = (c >>> n) ^^^ right.steps polynomial n (c &&& BitVec.ofNat 32 (2 ^ n - 1)) := by
  have mask (i : Nat) : (BitVec.ofNat 32 (2 ^ n - 1)).getLsbD i = (decide (i < 32) && decide (i < n)) := by
    rw [BitVec.getLsbD_ofNat, Nat.testBit_two_pow_sub_one]
  have quiet : ∀ k < n, right.out (right.shift^[k] (c ^^^ (c &&& BitVec.ofNat 32 (2 ^ n - 1)))) = false := by
    intro k less
    rw [right_out_shift, BitVec.getLsbD_xor, BitVec.getLsbD_and, mask]
    by_cases inside : k < 32
    · simp [inside, less]
    · simp [BitVec.getLsbD_of_ge c k (Nat.not_lt.mp inside)]
  have gone : right.shift^[n] (c &&& BitVec.ofNat 32 (2 ^ n - 1)) = 0 := by
    rw [right_shift_iterate]
    apply BitVec.eq_of_getLsbD_eq
    intro i _
    rw [BitVec.getLsbD_ushiftRight, BitVec.getLsbD_and, mask]
    simp
  rw [right.steps_split polynomial quiet gone, right_shift_iterate, BitVec.xor_comm]

/-- What the highest `n` bits of `c` become. -/
theorem left_lookup (polynomial c : U32) {n : Nat} (small : n ≤ 32) :
    left.steps polynomial n c = (c <<< n) ^^^ left.steps polynomial n (c >>> (32 - n) <<< (32 - n)) := by
  have high (i : Nat) : (c >>> (32 - n) <<< (32 - n)).getLsbD i = (decide (32 - n ≤ i) && c.getLsbD i) := by
    rw [BitVec.getLsbD_shiftLeft, BitVec.getLsbD_ushiftRight]
    by_cases inside : 32 - n ≤ i
    · have back : 32 - n + (i - (32 - n)) = i := by omega
      rw [back]
      by_cases below : i < 32
      · simp [inside, below]
      · simp [inside, below, BitVec.getLsbD_of_ge c i (Nat.not_lt.mp below)]
    · simp [inside]
  have quiet : ∀ k < n, left.out (left.shift^[k] (c ^^^ (c >>> (32 - n) <<< (32 - n)))) = false := by
    intro k less
    have inside : 32 - n ≤ 32 - 1 - k := by omega
    rw [left_out_shift, BitVec.getMsbD_eq_getLsbD, BitVec.getLsbD_xor, high, decide_eq_true inside]
    simp
  have gone : left.shift^[n] (c >>> (32 - n) <<< (32 - n)) = 0 := by
    rw [left_shift_iterate]
    apply BitVec.eq_of_getLsbD_eq
    intro i less
    rw [BitVec.getLsbD_shiftLeft, high]
    by_cases moved : i < n
    · simp [moved]
    · have outside : ¬ 32 - n ≤ i - n := by omega
      simp [outside]
  rw [left.steps_split polynomial quiet gone, left_shift_iterate, BitVec.xor_comm]

/-! ## The first row -/

/-- What the lowest bits of a number become. -/
def entryLe (polynomial : U32) (n i : Nat) : U32 := right.steps polynomial n (BitVec.ofNat 32 i)

/-- What the bits of a number become that starts at the highest bit. -/
def entryBe (polynomial : U32) (n i : Nat) : U32 := left.steps polynomial n (BitVec.ofNat 32 i <<< (32 - n))

theorem entryLe_xor (polynomial : U32) (n a b : Nat) : entryLe polynomial n (a ^^^ b) = entryLe polynomial n a ^^^ entryLe polynomial n b := by
  rw [entryLe, BitVec.ofNat_xor, right.steps_xor]
  rfl

theorem entryBe_xor (polynomial : U32) (n a b : Nat) : entryBe polynomial n (a ^^^ b) = entryBe polynomial n a ^^^ entryBe polynomial n b := by
  rw [entryBe, BitVec.ofNat_xor, BitVec.shiftLeft_xor_distrib, left.steps_xor]
  rfl

/-- A power of two is added to a number without its bit. -/
theorem pow_add_xor {k m : Nat} (clear : m.testBit k = false) : 2 ^ k + m = 2 ^ k ^^^ m := by
  have even : m / 2 ^ k % 2 = 0 := by
    rw [Nat.testBit_eq_decide_div_mod_eq, decide_eq_false_iff_not] at clear
    omega
  have low : m % 2 ^ k < 2 ^ k := Nat.mod_lt _ (Nat.two_pow_pos k)
  have parts : m = 2 ^ k * (m / 2 ^ k) + m % 2 ^ k := (Nat.div_add_mod m (2 ^ k)).symm
  have sum : 2 ^ k + m = 2 ^ k * (m / 2 ^ k + 1) + m % 2 ^ k := by
    rw [Nat.mul_add, Nat.mul_one]
    omega
  apply Nat.eq_of_testBit_eq
  intro j
  rw [sum, Nat.testBit_xor, Nat.testBit_two_pow, Nat.testBit_two_pow_mul_add _ low]
  conv_rhs => rw [parts, Nat.testBit_two_pow_mul_add _ low]
  by_cases below : j < k
  · simp [below, below.ne']
  · rw [if_neg below, if_neg below]
    cases place : j - k with
    | zero =>
        have here : k = j := by omega
        have odd : (m / 2 ^ k + 1) % 2 = 1 := by omega
        simp [here, Nat.testBit_zero, here ▸ odd, here ▸ even]
    | succ i =>
        have other : k ≠ j := by omega
        have half : (m / 2 ^ k + 1) / 2 = m / 2 ^ k / 2 := by omega
        rw [Nat.testBit_succ, Nat.testBit_succ, half, decide_eq_false other, Bool.false_xor]

theorem entryLe_pow (polynomial : U32) {n k : Nat} (less : k < n) (small : n ≤ 32) :
    entryLe polynomial n (2 ^ k) = right.steps polynomial (n - k) 1 := by
  have quiet : ∀ j < k, right.out (right.shift^[j] (BitVec.ofNat 32 (2 ^ k))) = false := by
    intro j before
    rw [right_out_shift, BitVec.getLsbD_ofNat, Nat.testBit_two_pow]
    simp [before.ne']
  have moved : (BitVec.ofNat 32 (2 ^ k)) >>> k = (1 : U32) := by
    apply BitVec.eq_of_getLsbD_eq
    intro i inside
    rw [BitVec.getLsbD_ushiftRight, BitVec.getLsbD_ofNat, Nat.testBit_two_pow]
    cases i with
    | zero =>
        have here : k < 32 := by omega
        simp [here]
    | succ i =>
        have other : k ≠ k + (i + 1) := by omega
        rw [decide_eq_false other, Bool.and_false]
        simp
  have split : n = n - k + k := by omega
  rw [entryLe, split, right.steps_add, right.steps_quiet polynomial quiet, right_shift_iterate, moved, Nat.add_sub_cancel]

theorem entryBe_pow (polynomial : U32) {n k : Nat} (less : k < n) (small : n ≤ 32) :
    entryBe polynomial n (2 ^ k) = left.steps polynomial (k + 1) 0x80000000 := by
  have bit (j : Nat) : (BitVec.ofNat 32 (2 ^ k) <<< (32 - n)).getLsbD j = (decide (j < 32) && decide (j = k + (32 - n))) := by
    rw [BitVec.getLsbD_shiftLeft, BitVec.getLsbD_ofNat, Nat.testBit_two_pow]
    rw [Bool.eq_iff_iff]
    simp only [Bool.and_eq_true, Bool.not_eq_true', decide_eq_true_eq, decide_eq_false_iff_not]
    omega
  have quiet : ∀ j < n - k - 1, left.out (left.shift^[j] (BitVec.ofNat 32 (2 ^ k) <<< (32 - n))) = false := by
    intro j before
    have other : ¬ 32 - 1 - j = k + (32 - n) := by omega
    rw [left_out_shift, BitVec.getMsbD_eq_getLsbD, bit, decide_eq_false other]
    simp
  have moved : BitVec.ofNat 32 (2 ^ k) <<< (32 - n) <<< (n - k - 1) = (0x80000000 : U32) := by
    have top : (0x80000000 : U32) = BitVec.twoPow 32 31 := by decide
    apply BitVec.eq_of_getLsbD_eq
    intro i inside
    rw [top, BitVec.getLsbD_twoPow, BitVec.getLsbD_shiftLeft, bit]
    rw [Bool.eq_iff_iff]
    simp only [Bool.and_eq_true, Bool.not_eq_true', decide_eq_true_eq, decide_eq_false_iff_not]
    omega
  have split : n = k + 1 + (n - k - 1) := by omega
  have sum : left.steps polynomial n (BitVec.ofNat 32 (2 ^ k) <<< (32 - n)) =
      left.steps polynomial (k + 1) (left.steps polynomial (n - k - 1) (BitVec.ofNat 32 (2 ^ k) <<< (32 - n))) := by
    rw [← left.steps_add, ← split]
  rw [entryBe, sum, left.steps_quiet polynomial quiet, left_shift_iterate, moved]

theorem fillLe_spec {i : Nat} (pos : 0 < i) (crc : U32) (tab : Row) (count p : Nat) :
    (List.range count).foldl (fun tab t => Function.update tab (i + 2 * i * t) (crc ^^^ tab (2 * i * t))) tab p =
      if ∃ t < count, p = i + 2 * i * t then crc ^^^ tab (p - i) else tab p := by
  induction count generalizing p with
  | zero => simp
  | succ count ih =>
      rw [List.range_succ, List.foldl_append, List.foldl_cons, List.foldl_nil]
      -- multiples of `2 * i` are never written
      have source : ¬ ∃ t < count, 2 * i * count = i + 2 * i * t := by
        rintro ⟨t, -, same⟩
        have odd : i * (2 * count) = i * (2 * t + 1) := by linarith
        have := Nat.eq_of_mul_eq_mul_left pos odd
        omega
      by_cases last : p = i + 2 * i * count
      · have found : ∃ t < count + 1, p = i + 2 * i * t := ⟨count, Nat.lt_succ_self count, last⟩
        rw [if_pos found, last, Function.update_self, ih, if_neg source, Nat.add_sub_cancel_left]
      · rw [Function.update_of_ne last, ih]
        refine if_congr ⟨?_, ?_⟩ rfl rfl
        · rintro ⟨t, less, is⟩
          exact ⟨t, less.trans (Nat.lt_succ_self count), is⟩
        · rintro ⟨t, less, is⟩
          have other : t ≠ count := fun same => last (same ▸ is)
          exact ⟨t, by omega, is⟩

/-- One round: the multiples of `2 ^ (k + 1)` are filled before it, those of `2 ^ k` after it. -/
theorem fillLe_round (polynomial : U32) {n k : Nat} (less : k < n) (small : n ≤ 32) {tab : Row}
    (known : ∀ q < 2 ^ (n - k - 1), tab (2 ^ (k + 1) * q) = entryLe polynomial n (2 ^ (k + 1) * q)) {q : Nat} (inside : q < 2 ^ (n - k)) :
    fillLe (2 ^ n) (2 ^ k) (right.steps polynomial (n - k) 1) tab (2 ^ k * q) = entryLe polynomial n (2 ^ k * q) := by
  have pos : 0 < 2 ^ k := Nat.two_pow_pos k
  have twice : 2 ^ (k + 1) = 2 * 2 ^ k := pow_succ' 2 k
  have size : 2 ^ n = 2 ^ (n - k - 1) * (2 * 2 ^ k) := by
    rw [← twice, ← pow_add]
    congr 1
    omega
  have half : 2 ^ (n - k) = 2 * 2 ^ (n - k - 1) := by
    rw [← pow_succ']
    congr 1
    omega
  have count : (2 ^ n + 2 * 2 ^ k - 1) / (2 * 2 ^ k) = 2 ^ (n - k - 1) := by
    have round : 2 ^ n + 2 * 2 ^ k - 1 = 2 * 2 ^ k - 1 + 2 ^ (n - k - 1) * (2 * 2 ^ k) := by omega
    rw [round, Nat.add_mul_div_right _ _ (by omega), Nat.div_eq_of_lt (by omega), Nat.zero_add]
  rw [fillLe, count]
  refine (fillLe_spec pos _ tab _ _).trans ?_
  rcases Nat.even_or_odd' q with ⟨t, even | odd⟩
  · have before : ¬ ∃ t' < 2 ^ (n - k - 1), 2 ^ k * q = 2 ^ k + 2 * 2 ^ k * t' := by
      rintro ⟨t', -, same⟩
      have multiple : 2 ^ k * q = 2 ^ k * (2 * t' + 1) := by linarith
      have := Nat.eq_of_mul_eq_mul_left pos multiple
      omega
    have place : 2 ^ k * q = 2 ^ (k + 1) * t := by
      rw [even, twice]
      ring
    rw [if_neg before, place]
    exact known t (by omega)
  · have here : ∃ t' < 2 ^ (n - k - 1), 2 ^ k * q = 2 ^ k + 2 * 2 ^ k * t' := ⟨t, by omega, by rw [odd]; ring⟩
    have place : 2 ^ k * q = 2 ^ k + 2 ^ (k + 1) * t := by
      rw [odd, twice]
      ring
    have clear : (2 ^ (k + 1) * t).testBit k = false := by
      rw [Nat.testBit_two_pow_mul]
      simp
    rw [if_pos here, place, Nat.add_sub_cancel_left, known t (by omega), pow_add_xor clear, entryLe_xor, entryLe_pow polynomial less small]

theorem initLe_spec (polynomial : U32) {n k : Nat} (less : k < n) (small : n ≤ 32) {crc : U32} {tab : Row}
    (crcIs : crc = right.steps polynomial (n - k - 1) 1)
    (known : ∀ q < 2 ^ (n - k - 1), tab (2 ^ (k + 1) * q) = entryLe polynomial n (2 ^ (k + 1) * q)) {p : Nat} (inside : p < 2 ^ n) :
    initLe polynomial (2 ^ n) (2 ^ k) crc tab p = entryLe polynomial n p := by
  induction k generalizing crc tab with
  | zero =>
      have next : stepLe polynomial crc = right.steps polynomial (n - 0) 1 := by
        rw [crcIs, stepLe_eq, right.step_steps]
        congr 1
        omega
      have filled := @fillLe_round polynomial n 0 less small tab known p inside
      rw [pow_zero, Nat.one_mul] at filled
      rw [initLe, if_neg (by decide), initLe, if_pos (by decide), pow_zero, next]
      exact filled
  | succ k ih =>
      have next : stepLe polynomial crc = right.steps polynomial (n - (k + 1)) 1 := by
        rw [crcIs, stepLe_eq, right.step_steps]
        congr 1
        omega
      have half : 2 ^ (k + 1) / 2 = 2 ^ k := by
        rw [pow_succ, Nat.mul_div_cancel _ (by decide)]
      have filled (q : Nat) := @fillLe_round polynomial n (k + 1) less small tab known q
      rw [initLe, if_neg (Nat.two_pow_pos _).ne', half, next]
      exact ih (by omega) rfl filled

/-- The first row of `crc32init_le_generic`. -/
theorem firstRowLe (polynomial : U32) {n p : Nat} (pos : 0 < n) (small : n ≤ 32) (inside : p < 2 ^ n) :
    initLe polynomial (2 ^ n) (2 ^ n / 2) 1 (fun _ => 0) p = entryLe polynomial n p := by
  obtain ⟨k, rfl⟩ : ∃ k, n = k + 1 := ⟨n - 1, by omega⟩
  have half : 2 ^ (k + 1) / 2 = 2 ^ k := by
    rw [pow_succ, Nat.mul_div_cancel _ (by decide)]
  rw [half]
  have last : k + 1 - k - 1 = 0 := by omega
  refine @initLe_spec polynomial (k + 1) k (Nat.lt_succ_self k) small _ _ ?_ ?_ p inside
  · rw [last]
    rfl
  · intro q zero
    rw [last, pow_zero, Nat.lt_one_iff] at zero
    rw [zero, Nat.mul_zero]
    exact (right.steps_zero polynomial (k + 1)).symm

theorem fillBe_spec {i : Nat} (crc : U32) (tab : Row) {count : Nat} (within : count ≤ i) (p : Nat) :
    (List.range count).foldl (fun tab j => Function.update tab (i + j) (crc ^^^ tab j)) tab p =
      if i ≤ p ∧ p < i + count then crc ^^^ tab (p - i) else tab p := by
  induction count generalizing p with
  | zero => rw [List.range_zero, List.foldl_nil, if_neg (by omega)]
  | succ count ih =>
      rw [List.range_succ, List.foldl_append, List.foldl_cons, List.foldl_nil]
      by_cases last : p = i + count
      · rw [last, Function.update_self, ih (by omega), if_neg (by omega), if_pos (by omega), Nat.add_sub_cancel_left]
      · rw [Function.update_of_ne last, ih (by omega)]
        exact if_congr (by omega) rfl rfl

theorem initBe_spec (polynomial : U32) {n k : Nat} (le : k ≤ n) (small : n ≤ 32) {crc : U32} {tab : Row}
    (crcIs : crc = left.steps polynomial k 0x80000000) (known : ∀ p < 2 ^ k, tab p = entryBe polynomial n p) {p : Nat} (inside : p < 2 ^ n) :
    initBe polynomial (2 ^ n) (2 ^ k) crc tab p = entryBe polynomial n p := by
  induction left : n - k generalizing k crc tab with
  | zero =>
      obtain rfl : k = n := by omega
      rw [initBe, if_neg (by omega)]
      exact known p inside
  | succ m ih =>
      have less : k < n := by omega
      have more : 0 < 2 ^ k ∧ 2 ^ k < 2 ^ n := ⟨Nat.two_pow_pos k, Nat.pow_lt_pow_right (by decide) less⟩
      have next : stepBe polynomial crc = ShiftRegister.left.steps polynomial (k + 1) 0x80000000 := by
        rw [crcIs, stepBe_eq, ShiftRegister.left.step_steps]
      rw [initBe, if_pos more, ← pow_succ']
      refine ih less next ?_ (by omega)
      intro p below
      refine (fillBe_spec _ tab le_rfl p).trans ?_
      rw [pow_succ] at below
      by_cases high : 2 ^ k ≤ p
      · have source : p - 2 ^ k < 2 ^ k := by omega
        have parts : p = 2 ^ k + (p - 2 ^ k) := by omega
        rw [if_pos ⟨high, by omega⟩, known _ source, next, ← entryBe_pow polynomial less small, ← entryBe_xor,
          ← pow_add_xor (Nat.testBit_lt_two_pow source), ← parts]
      · rw [if_neg (fun both => high both.1)]
        exact known p (by omega)

/-- The first row of `crc32init_be`. -/
theorem firstRowBe (polynomial : U32) {n p : Nat} (small : n ≤ 32) (inside : p < 2 ^ n) :
    initBe polynomial (2 ^ n) 1 0x80000000 (fun _ => 0) p = entryBe polynomial n p := by
  refine @initBe_spec polynomial n 0 (Nat.zero_le n) small _ _ rfl ?_ p inside
  intro p zero
  rw [pow_zero, Nat.lt_one_iff] at zero
  rw [zero, entryBe]
  have nothing : BitVec.ofNat 32 0 <<< (32 - n) = 0 := BitVec.zero_shiftLeft _
  rw [nothing, left.steps_zero]

/-! ## All rows -/

theorem and_byte_lt (x : U32) : (x &&& 0xff).toNat < 256 := by
  rw [BitVec.toNat_and]
  exact Nat.and_le_right.trans_lt (by decide)

/-- A byte at a time, by the first row. -/
theorem byteLe (polynomial : U32) {tab0 : Row} (first : ∀ i < 256, tab0 i = entryLe polynomial 8 i) (crc : U32) :
    tab0 (crc &&& 0xff).toNat ^^^ (crc >>> 8) = right.steps polynomial 8 crc := by
  rw [first _ (and_byte_lt crc), entryLe, BitVec.ofNat_toNat, BitVec.setWidth_eq, right_lookup polynomial crc, BitVec.xor_comm]
  rfl

theorem byteBe (polynomial : U32) {tab0 : Row} (first : ∀ i < 256, tab0 i = entryBe polynomial 8 i) (crc : U32) :
    tab0 ((crc >>> 24) &&& 0xff).toNat ^^^ (crc <<< 8) = left.steps polynomial 8 crc := by
  have top : (crc >>> 24) &&& (0xff : U32) = crc >>> 24 := by
    apply BitVec.eq_of_getLsbD_eq
    intro i _
    have mask : (0xff : U32).getLsbD i = (decide (i < 32) && decide (i < 8)) := by
      have is : (0xff : U32) = BitVec.ofNat 32 (2 ^ 8 - 1) := rfl
      rw [is, BitVec.getLsbD_ofNat, Nat.testBit_two_pow_sub_one]
    rw [BitVec.getLsbD_and, BitVec.getLsbD_ushiftRight, mask]
    by_cases low : i < 8
    · have inside : i < 32 := by omega
      simp [low, inside]
    · have beyond : 32 ≤ 24 + i := by omega
      rw [BitVec.getLsbD_of_ge crc _ beyond, Bool.false_and]
  rw [first _ (and_byte_lt _), top, entryBe, BitVec.ofNat_toNat, BitVec.setWidth_eq, left_lookup polynomial crc (by decide), BitVec.xor_comm]

theorem columnLe_getD (polynomial : U32) {tab0 : Row} (first : ∀ i < 256, tab0 i = entryLe polynomial 8 i) (crc : U32) {rows j : Nat} (le : j ≤ rows) :
    (crc :: columnLe tab0 rows crc).getD j 0 = right.steps polynomial (8 * j) crc := by
  induction j generalizing crc rows with
  | zero => rfl
  | succ j ih =>
      cases rows with
      | zero => exact absurd le (Nat.not_succ_le_zero j)
      | succ rows =>
          rw [columnLe, byteLe polynomial first, List.getD_cons_succ, ih _ (Nat.le_of_succ_le_succ le), ← right.steps_add]
          rfl

theorem columnBe_getD (polynomial : U32) {tab0 : Row} (first : ∀ i < 256, tab0 i = entryBe polynomial 8 i) (crc : U32) {rows j : Nat} (le : j ≤ rows) :
    (crc :: columnBe tab0 rows crc).getD j 0 = left.steps polynomial (8 * j) crc := by
  induction j generalizing crc rows with
  | zero => rfl
  | succ j ih =>
      cases rows with
      | zero => exact absurd le (Nat.not_succ_le_zero j)
      | succ rows =>
          rw [columnBe, byteBe polynomial first, List.getD_cons_succ, ih _ (Nat.le_of_succ_le_succ le), ← left.steps_add]
          rfl

/-- A configuration that looks at whole words. -/
def CrcBits.Sliced (bits : CrcBits) : Prop := bits.toNat > 8

instance (bits : CrcBits) : Decidable bits.Sliced := inferInstanceAs (Decidable (bits.toNat > 8))

/-- The bits that one look at the first row covers. -/
def CrcBits.width (bits : CrcBits) : Nat := if bits.toNat > 8 then 8 else bits.toNat

theorem tableSize_eq (bits : CrcBits) : tableSize bits = 2 ^ bits.width := by cases bits <;> decide

theorem crc32initLeGeneric_zero (polynomial : U32) {bits : CrcBits} {i : Nat} (inside : i < 2 ^ bits.width) :
    crc32initLeGeneric bits polynomial 0 i = entryLe polynomial bits.width i := by
  have width : 0 < bits.width ∧ bits.width ≤ 32 := by cases bits <;> decide
  have first := firstRowLe polynomial width.1 width.2 inside
  rw [← tableSize_eq] at first
  exact first

theorem crc32initBe_zero {bits : CrcBits} {i : Nat} (inside : i < 2 ^ bits.width) :
    crc32initBe bits 0 i = entryBe crc32PolyBe bits.width i := by
  have width : bits.width ≤ 32 := by cases bits <;> decide
  have first := firstRowBe crc32PolyBe width inside
  rw [← tableSize_eq] at first
  exact first

theorem crc32initLeGeneric_spec (polynomial : U32) {bits : CrcBits} (sliced : bits.Sliced) {j i : Nat} (row : j < tableRows bits) (inside : i < 256) :
    crc32initLeGeneric bits polynomial j i = right.steps polynomial (8 * (j + 1)) (BitVec.ofNat 32 i) := by
  have width : bits.width = 8 := if_pos sliced
  have first (i : Nat) (inside : i < 256) : crc32initLeGeneric bits polynomial 0 i = entryLe polynomial 8 i := by
    rw [crc32initLeGeneric_zero polynomial (by rw [width]; exact inside), width]
  refine (columnLe_getD polynomial first _ (Nat.le_sub_one_of_lt row)).trans ?_
  have start := first i inside
  change right.steps polynomial (8 * j) (crc32initLeGeneric bits polynomial 0 i) = _
  rw [start, entryLe, ← right.steps_add]
  rfl

theorem crc32initBe_spec {bits : CrcBits} (sliced : bits.Sliced) {j i : Nat} (row : j < tableRows bits) (inside : i < 256) :
    crc32initBe bits j i = left.steps crc32PolyBe (8 * (j + 1)) (BitVec.ofNat 32 i <<< 24) := by
  have width : bits.width = 8 := if_pos sliced
  have first (i : Nat) (inside : i < 256) : crc32initBe bits 0 i = entryBe crc32PolyBe 8 i := by
    rw [crc32initBe_zero (by rw [width]; exact inside), width]
  refine (columnBe_getD crc32PolyBe first _ (Nat.le_sub_one_of_lt row)).trans ?_
  have start := first i inside
  change left.steps crc32PolyBe (8 * j) (crc32initBe bits 0 i) = _
  rw [start, entryBe, ← left.steps_add]
  rfl

end Miracle.Crc32
