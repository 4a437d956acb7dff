import Miracle.Lib.BitScan

/-! # Positions of set bits

The set bits below an end in ascending order.  A bit's ordinal is the number of set bits below it,
which is its index in this list.
-/

namespace Miracle.Positions

open BitScan

/-- The set bits of `[q, n)`. -/
def positionsFrom (m : Bitmap) (q n : Nat) : List Nat := (List.range' q (n - q)).filter fun i => m i

/-- The set bits below `n`. -/
def positions (m : Bitmap) (n : Nat) : List Nat := positionsFrom m 0 n

variable {m : Bitmap} {n p q k : Nat}

theorem mem_positionsFrom : p ∈ positionsFrom m q n ↔ q ≤ p ∧ p < n ∧ m p = true := by
  rw [positionsFrom, List.mem_filter, List.mem_range'_1]
  constructor
  · rintro ⟨⟨low, high⟩, set⟩
    exact ⟨low, by omega, set⟩
  · rintro ⟨low, high, set⟩
    exact ⟨⟨low, by omega⟩, set⟩

theorem mem_positions : p ∈ positions m n ↔ p < n ∧ m p = true := by
  rw [positions, mem_positionsFrom]
  exact and_iff_right (Nat.zero_le p)

theorem positionsFrom_append (low : q ≤ p) (high : p ≤ n) : positionsFrom m q n = positionsFrom m q p ++ positionsFrom m p n := by
  have split : List.range' q (n - q) = List.range' q (p - q) ++ List.range' p (n - p) := by
    have parts : n - q = p - q + (n - p) := by omega
    have next : q + (p - q) = p := by omega
    rw [parts, ← List.range'_append_1, next]
  rw [positionsFrom, split, List.filter_append]
  rfl

theorem positionsFrom_cons (less : q < n) (set : m q = true) : positionsFrom m q n = q :: positionsFrom m (q + 1) n := by
  have count : n - q = n - (q + 1) + 1 := by omega
  rw [positionsFrom, count, List.range'_succ, List.filter_cons_of_pos set]
  rfl

theorem positionsFrom_nil (none : ∀ i, q ≤ i → i < n → m i = false) : positionsFrom m q n = [] := by
  rw [List.eq_nil_iff_forall_not_mem]
  intro i member
  obtain ⟨low, high, set⟩ := mem_positionsFrom.mp member
  rw [none i low high] at set
  exact Bool.false_ne_true set

/-- A scan finds the head of the list. -/
theorem positionsFrom_next (less : findNext m true n q < n) :
    positionsFrom m q n = findNext m true n q :: positionsFrom m (findNext m true n q + 1) n := by
  obtain ⟨upper, lower, found, before⟩ := findNext_spec m true n q
  have inside : q ≤ n := by
    by_contra past
    rw [findNext_past (by omega)] at less
    exact lt_irrefl n less
  rw [positionsFrom_append (lower inside) upper, positionsFrom_nil before, List.nil_append, positionsFrom_cons less (found less)]

theorem positionsFrom_end (past : ¬ findNext m true n q < n) : positionsFrom m q n = [] := by
  obtain ⟨upper, -, -, before⟩ := findNext_spec m true n q
  exact positionsFrom_nil fun i low high => before i low (by omega)

theorem positions_length : (positions m n).length = (List.range n).countP m := by
  rw [positions, positionsFrom, Nat.sub_zero, ← List.range_eq_range', List.countP_eq_length_filter]

theorem positions_nodup : (positions m n).Nodup := List.Nodup.filter _ List.nodup_range'

/-- The bits below a set bit give its index. -/
theorem positions_ordinal (less : p < n) (set : m p = true) : (positions m n)[(positions m p).length]? = some p := by
  rw [positions, positionsFrom_append (Nat.zero_le p) less.le, ← positions, List.getElem?_append_right le_rfl, Nat.sub_self, positionsFrom_cons less set]
  rfl

theorem ordinal_of (here : (positions m n)[k]? = some p) : p < n ∧ m p = true ∧ (positions m p).length = k := by
  obtain ⟨less, set⟩ := mem_positions.mp (List.mem_of_getElem? here)
  refine ⟨less, set, ?_⟩
  obtain ⟨inside, is⟩ := List.getElem?_eq_some_iff.mp here
  obtain ⟨inside', is'⟩ := List.getElem?_eq_some_iff.mp (positions_ordinal less set)
  exact (List.Nodup.getElem_inj_iff positions_nodup).mp (is'.trans is.symm)

/-- The ordinal is below the number of set bits. -/
theorem ordinal_lt (less : p < n) (set : m p = true) : (positions m p).length < (positions m n).length :=
  (List.getElem?_eq_some_iff.mp (positions_ordinal less set)).1

theorem positions_congr {m' : Bitmap} (same : ∀ i < n, m i = m' i) : positions m n = positions m' n := by
  refine List.filter_congr fun i member => ?_
  rw [List.mem_range'_1] at member
  exact same i (by omega)

end Miracle.Positions
