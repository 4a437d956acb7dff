import Mathlib.Data.Nat.Digits.Lemmas

/-! # Positional numerals

The value of a list of digits, the most significant one first, as a loop over the digits
computes it.
-/

namespace Miracle.Numeral

/-- The value of digits that are read after others of value `acc`. -/
def extend (b acc : Nat) (ds : List Nat) : Nat := ds.foldl (fun v d => v * b + d) acc

def value (b : Nat) (ds : List Nat) : Nat := extend b 0 ds

variable {b acc d : Nat} {ds es : List Nat}

@[simp] theorem extend_nil : extend b acc [] = acc := rfl

@[simp] theorem extend_cons : extend b acc (d :: ds) = extend b (acc * b + d) ds := rfl

theorem extend_append : extend b acc (ds ++ es) = extend b (extend b acc ds) es := List.foldl_append

theorem le_extend (pos : 0 < b) : acc ≤ extend b acc ds := by
  induction ds generalizing acc with
  | nil => exact le_rfl
  | cons d ds ih =>
      calc acc ≤ acc * b := Nat.le_mul_of_pos_right acc pos
        _ ≤ acc * b + d := Nat.le_add_right _ _
        _ ≤ extend b (acc * b + d) ds := ih

theorem extend_eq : extend b acc ds = acc * b ^ ds.length + value b ds := by
  rw [value]
  induction ds using List.reverseRecOn with
  | nil => simp
  | append_singleton ds d ih =>
      rw [extend_append, extend_append, extend_cons, extend_cons, extend_nil, extend_nil, ih, List.length_append,
        List.length_singleton, pow_succ, Nat.add_mul, Nat.mul_assoc, Nat.add_assoc]

theorem value_append : value b (ds ++ es) = value b ds * b ^ es.length + value b es := by
  rw [value, extend_append, extend_eq]
  rfl

theorem value_eq_ofDigits : value b ds = Nat.ofDigits b ds.reverse := by
  induction ds using List.reverseRecOn with
  | nil => rfl
  | append_singleton ds d ih =>
      rw [value_append, ih, List.reverse_append, List.reverse_singleton, List.singleton_append, Nat.ofDigits_cons]
      simp [value, Nat.mul_comm, Nat.add_comm]

theorem value_lt (two : 1 < b) (digits : ∀ d ∈ ds, d < b) : value b ds < b ^ ds.length := by
  rw [value_eq_ofDigits, ← List.length_reverse]
  exact Nat.ofDigits_lt_base_pow_length two (fun d member => digits d (List.mem_reverse.mp member))

/-- Leading zeros do not count. -/
theorem value_zeros (n : Nat) : value b (List.replicate n 0 ++ ds) = value b ds := by
  rw [value_eq_ofDigits, List.reverse_append, List.reverse_replicate, Nat.ofDigits_append_replicate_zero, ← value_eq_ofDigits]

/-- Dividing by the base drops digits at the end. -/
theorem value_drop (two : 1 < b) (digits : ∀ d ∈ es, d < b) : value b (ds ++ es) / b ^ es.length = value b ds := by
  rw [value_append, Nat.mul_comm, Nat.mul_add_div (Nat.pow_pos (by omega)), Nat.div_eq_of_lt (value_lt two digits), Nat.add_zero]

theorem value_digits (n : Nat) : value b (Nat.digits b n).reverse = n := by
  rw [value_eq_ofDigits, List.reverse_reverse, Nat.ofDigits_digits]

/-! ## Decimal numerals -/

/-- A decimal numeral, with or without leading zeros. -/
structure Decimal where
  digits : List (Fin 10)
  nonempty : digits ≠ []

def Decimal.text (n : Decimal) : List Char := n.digits.map fun d : Fin 10 => Nat.digitChar d

def Decimal.value (n : Decimal) : Nat := Numeral.value 10 (n.digits.map Fin.val)

theorem Decimal.text_pos (n : Decimal) : 0 < n.text.length := by
  rw [Decimal.text, List.length_map]
  exact List.length_pos_iff.mpr n.nonempty

/-! ## Digits in chunks -/

/-- The `k` lowest digits, the least significant one first. -/
def lowDigits (b : Nat) : Nat → Nat → List Nat
  | 0, _ => []
  | k + 1, n => n % b :: lowDigits b k (n / b)

theorem lowDigits_mod (k n : Nat) : lowDigits b k (n % b ^ k) = lowDigits b k n := by
  induction k generalizing n with
  | zero => rfl
  | succ k ih =>
      rw [lowDigits, lowDigits, pow_succ', Nat.mod_mul_right_mod, Nat.mod_mul_right_div_self, ih]

/-- A chunk of digits comes off with one division. -/
theorem digits_chunk (two : 1 < b) {k n : Nat} (le : b ^ k ≤ n) :
    Nat.digits b n = lowDigits b k n ++ Nat.digits b (n / b ^ k) := by
  induction k generalizing n with
  | zero => simp [lowDigits]
  | succ k ih =>
      have pos : 0 < n := (Nat.pow_pos (by omega)).trans_le le
      have rest : b ^ k ≤ n / b := by
        rw [Nat.le_div_iff_mul_le (by omega), ← pow_succ]
        exact le
      rw [Nat.digits_def' two pos, ih rest, lowDigits, Nat.div_div_eq_div_mul, ← pow_succ', List.cons_append]

/-- A number with that many digits. -/
theorem digits_lowDigits (two : 1 < b) {k n : Nat} (low : b ^ k ≤ n) (high : n < b ^ (k + 1)) :
    Nat.digits b n = lowDigits b (k + 1) n := by
  have pos : 0 < b ^ k := Nat.pow_pos (by omega)
  have digit : n / b ^ k < b := by
    rw [Nat.div_lt_iff_lt_mul pos, ← pow_succ']
    exact high
  have some : n / b ^ k ≠ 0 := (Nat.div_pos low pos).ne'
  have last (k n : Nat) : lowDigits b (k + 1) n = lowDigits b k n ++ [n / b ^ k % b] := by
    induction k generalizing n with
    | zero => simp [lowDigits]
    | succ k ih => rw [lowDigits, ih, lowDigits, Nat.div_div_eq_div_mul, ← pow_succ', List.cons_append]
  rw [digits_chunk two low, last, Nat.digits_of_lt b _ some digit, Nat.mod_eq_of_lt digit]

end Miracle.Numeral
