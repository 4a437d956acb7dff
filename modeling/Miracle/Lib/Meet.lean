import Mathlib.Data.List.Basic
import Mathlib.Data.List.Pairwise
import Mathlib.Order.Nat

/-! # Intersections of two sorted families of intervals

The nonempty meetings of the intervals `[lo i, hi i)` with the intervals `[lo' j, hi' j)`, listed by `i` and then by
`j`.  Where one interval ends before the other begins, a step of a sweep over both families drops an index without
losing a meeting.
-/

namespace Miracle.Meet

/-- Two families of intervals; only the members of the first that satisfy `use` take part. -/
structure Families where
  use : Nat → Bool
  lo : Nat → Nat
  hi : Nat → Nat
  lo' : Nat → Nat
  hi' : Nat → Nat

variable (f : Families)

def meet (i j : Nat) : List (Nat × Nat) :=
  if f.use i ∧ f.lo i < f.hi' j ∧ f.lo' j < f.hi i then [(max (f.lo i) (f.lo' j), min (f.hi i) (f.hi' j))] else []

/-- The meetings of the intervals of `is` with those of `js`. -/
def meets (is js : List Nat) : List (Nat × Nat) := is.flatMap fun i => js.flatMap (meet f i)

variable {f}

theorem meet_of_ends {i j : Nat} (ends : f.hi i ≤ f.lo' j ∨ f.hi' j ≤ f.lo i) : meet f i j = [] := by
  apply if_neg
  rintro ⟨-, low, high⟩
  omega

theorem meet_of_unused {i : Nat} (unused : f.use i = false) (j : Nat) : meet f i j = [] := by
  apply if_neg
  rintro ⟨used, -⟩
  simp [unused] at used

theorem meet_of_used {i j : Nat} (used : f.use i) (low : f.lo i < f.hi' j) (high : f.lo' j < f.hi i) :
    meet f i j = [(max (f.lo i) (f.lo' j), min (f.hi i) (f.hi' j))] := if_pos ⟨used, low, high⟩

theorem mem_meet {i j : Nat} {p : Nat × Nat} :
    p ∈ meet f i j ↔
      f.use i ∧ f.lo i < f.hi' j ∧ f.lo' j < f.hi i ∧ p = (max (f.lo i) (f.lo' j), min (f.hi i) (f.hi' j)) := by
  unfold meet
  split
  · rename_i all
    simp [all]
  · rename_i none
    simp only [List.not_mem_nil, false_iff]
    rintro ⟨used, low, high, -⟩
    exact none ⟨used, low, high⟩

theorem mem_meets {is js : List Nat} {p : Nat × Nat} : p ∈ meets f is js ↔ ∃ i ∈ is, ∃ j ∈ js, p ∈ meet f i j := by
  simp [meets]

/-! ## The steps of a sweep -/

@[simp] theorem meets_nil_left (js : List Nat) : meets f [] js = [] := rfl

@[simp] theorem meets_nil_right (is : List Nat) : meets f is [] = [] := by
  simp [meets]

theorem meets_drop_left {i : Nat} {is js : List Nat} (none : ∀ j ∈ js, meet f i j = []) :
    meets f (i :: is) js = meets f is js := by
  have row : js.flatMap (meet f i) = [] := List.flatMap_eq_nil_iff.mpr none
  rw [meets, List.flatMap_cons, row, List.nil_append]
  rfl

theorem meets_drop_right {j : Nat} {is js : List Nat} (none : ∀ i ∈ is, meet f i j = []) :
    meets f is (j :: js) = meets f is js := by
  unfold meets
  apply List.flatMap_congr
  intro i member
  rw [List.flatMap_cons, none i member, List.nil_append]

theorem meets_take_left {i j : Nat} {is js : List Nat} {p : Nat × Nat} (this : meet f i j = [p])
    (none : ∀ k ∈ js, meet f i k = []) : meets f (i :: is) (j :: js) = p :: meets f is (j :: js) := by
  have row : js.flatMap (meet f i) = [] := List.flatMap_eq_nil_iff.mpr none
  rw [meets, List.flatMap_cons, List.flatMap_cons, this, row]
  rfl

theorem meets_take_right {i j : Nat} {is js : List Nat} {p : Nat × Nat} (this : meet f i j = [p])
    (none : ∀ k ∈ is, meet f k j = []) : meets f (i :: is) (j :: js) = p :: meets f (i :: is) js := by
  have rest : meets f is (j :: js) = meets f is js := meets_drop_right none
  rw [meets, List.flatMap_cons, List.flatMap_cons, this]
  change p :: (js.flatMap (meet f i) ++ meets f is (j :: js)) = _
  rw [rest]
  rfl

/-- Reversing both families reverses the list. -/
theorem meets_reverse (is js : List Nat) : meets f is.reverse js.reverse = (meets f is js).reverse := by
  have single (i j : Nat) : (meet f i j).reverse = meet f i j := by
    unfold meet
    split
    · rfl
    · rfl
  simp only [meets, List.reverse_flatMap]
  apply List.flatMap_congr
  intro i _
  simp [Function.comp_def, List.reverse_flatMap, single]

/-! ## Sorted families -/

theorem meets_sorted {is js : List Nat} (rows : is.Pairwise fun i k => f.hi i ≤ f.lo k)
    (columns : js.Pairwise fun j k => f.hi' j ≤ f.lo' k) :
    (meets f is js).Pairwise fun p q => p.2 ≤ q.1 := by
  apply List.pairwise_flatMap.mpr
  constructor
  · intro i _
    apply List.pairwise_flatMap.mpr
    constructor
    · intro j _
      unfold meet
      split
      · exact List.pairwise_singleton _ _
      · exact List.Pairwise.nil
    · apply columns.imp
      intro j k before p hp q hq
      obtain ⟨-, -, -, rfl⟩ := mem_meet.mp hp
      obtain ⟨-, -, -, rfl⟩ := mem_meet.mp hq
      simp only
      omega
  · apply rows.imp
    intro i k before p hp q hq
    obtain ⟨j, -, hp⟩ := List.mem_flatMap.mp hp
    obtain ⟨l, -, hq⟩ := List.mem_flatMap.mp hq
    obtain ⟨-, -, -, rfl⟩ := mem_meet.mp hp
    obtain ⟨-, -, -, rfl⟩ := mem_meet.mp hq
    simp only
    omega

/-- A point lies in a meeting if it lies in an interval of each family. -/
theorem mem_meets_iff {is js : List Nat} {x : Nat} :
    (∃ p ∈ meets f is js, p.1 ≤ x ∧ x < p.2) ↔
      (∃ i ∈ is, f.use i ∧ f.lo i ≤ x ∧ x < f.hi i) ∧ ∃ j ∈ js, f.lo' j ≤ x ∧ x < f.hi' j := by
  constructor
  · rintro ⟨p, member, low, high⟩
    obtain ⟨i, hi, j, hj, member⟩ := mem_meets.mp member
    obtain ⟨used, -, -, rfl⟩ := mem_meet.mp member
    simp only at low high
    exact ⟨⟨i, hi, used, by omega, by omega⟩, j, hj, by omega, by omega⟩
  · rintro ⟨⟨i, hi, used, low, high⟩, j, hj, low', high'⟩
    refine ⟨_, mem_meets.mpr ⟨i, hi, j, hj, mem_meet.mpr ⟨used, by omega, by omega, rfl⟩⟩, ?_⟩
    simp only
    omega

/-! ## Sweeping upwards -/

/-- The first `m` intervals of the one family and the first `n` of the other are in order. -/
structure Sorted (f : Families) (m n : Nat) : Prop where
  row : ∀ i < m, f.lo i ≤ f.hi i
  rows : ∀ i k, i < k → k < m → f.hi i ≤ f.lo k
  column : ∀ j < n, f.lo' j ≤ f.hi' j
  columns : ∀ j k, j < k → k < n → f.hi' j ≤ f.lo' k

section

variable {m n : Nat} (sorted : Sorted f m n)

theorem Sorted.lo_mono (sorted : Sorted f m n) {i k : Nat} (le : i ≤ k) (lt : k < m) : f.lo i ≤ f.lo k := by
  rcases Nat.lt_or_eq_of_le le with before | rfl
  · exact (sorted.row i (by omega)).trans (sorted.rows i k before lt)
  · exact le_rfl

theorem Sorted.hi_mono (sorted : Sorted f m n) {i k : Nat} (le : i ≤ k) (lt : k < m) : f.hi i ≤ f.hi k := by
  rcases Nat.lt_or_eq_of_le le with before | rfl
  · exact (sorted.rows i k before lt).trans (sorted.row k lt)
  · exact le_rfl

theorem Sorted.lo'_mono (sorted : Sorted f m n) {j k : Nat} (le : j ≤ k) (lt : k < n) : f.lo' j ≤ f.lo' k := by
  rcases Nat.lt_or_eq_of_le le with before | rfl
  · exact (sorted.column j (by omega)).trans (sorted.columns j k before lt)
  · exact le_rfl

theorem Sorted.hi'_mono (sorted : Sorted f m n) {j k : Nat} (le : j ≤ k) (lt : k < n) : f.hi' j ≤ f.hi' k := by
  rcases Nat.lt_or_eq_of_le le with before | rfl
  · exact (sorted.columns j k before lt).trans (sorted.column k lt)
  · exact le_rfl

variable (f m n) in
/-- The meetings from the indices `a` and `b` on. -/
def ahead (a b : Nat) : List (Nat × Nat) := meets f (List.range' a (m - a)) (List.range' b (n - b))

theorem range'_cons {a m : Nat} (lt : a < m) : List.range' a (m - a) = a :: List.range' (a + 1) (m - (a + 1)) := by
  rw [show m - a = m - (a + 1) + 1 by omega, List.range'_succ]

theorem mem_range'_iff {a m i : Nat} : i ∈ List.range' a (m - a) ↔ a ≤ i ∧ i < m := by
  rw [List.mem_range'_1]
  omega

theorem ahead_done {a b : Nat} (done : m ≤ a ∨ n ≤ b) : ahead f m n a b = [] := by
  rcases done with done | done
  · rw [ahead, Nat.sub_eq_zero_of_le done]
    rfl
  · rw [ahead, Nat.sub_eq_zero_of_le done]
    exact meets_nil_right _

variable {a b : Nat} (ha : a < m)

include ha

theorem ahead_unused (unused : f.use a = false) : ahead f m n a b = ahead f m n (a + 1) b := by
  rw [ahead, range'_cons ha]
  apply meets_drop_left
  intro j _
  exact meet_of_unused unused j

include sorted

theorem ahead_stop (ends : f.hi a ≤ f.lo' b) : ahead f m n a b = ahead f m n (a + 1) b := by
  rw [ahead, range'_cons ha]
  apply meets_drop_left
  intro j member
  obtain ⟨le, lt⟩ := mem_range'_iff.mp member
  exact meet_of_ends (.inl (ends.trans (sorted.lo'_mono le lt)))

variable (hb : b < n)

include hb

omit ha in
theorem ahead_skip (ends : f.hi' b ≤ f.lo a) : ahead f m n a b = ahead f m n a (b + 1) := by
  rw [ahead, range'_cons hb]
  apply meets_drop_right
  intro i member
  obtain ⟨le, lt⟩ := mem_range'_iff.mp member
  exact meet_of_ends (.inr (ends.trans (sorted.lo_mono le lt)))

variable (used : f.use a) (low : f.lo a < f.hi' b) (high : f.lo' b < f.hi a)

include used low high

theorem ahead_take_row (first : f.hi a ≤ f.hi' b) :
    ahead f m n a b = (max (f.lo a) (f.lo' b), min (f.hi a) (f.hi' b)) :: ahead f m n (a + 1) b := by
  rw [ahead, range'_cons ha, ahead, range'_cons hb]
  apply meets_take_left (meet_of_used used low high)
  intro k member
  obtain ⟨le, lt⟩ := mem_range'_iff.mp member
  exact meet_of_ends (.inl (first.trans (sorted.columns b k le lt)))

theorem ahead_take_column (first : f.hi' b < f.hi a) :
    ahead f m n a b = (max (f.lo a) (f.lo' b), min (f.hi a) (f.hi' b)) :: ahead f m n a (b + 1) := by
  rw [ahead, range'_cons ha, ahead, range'_cons hb, range'_cons ha]
  apply meets_take_right (meet_of_used used low high)
  intro k member
  obtain ⟨le, lt⟩ := mem_range'_iff.mp member
  exact meet_of_ends (.inr (first.le.trans (sorted.rows a k le lt)))

end

/-! ## Sweeping downwards -/

section

variable {m n : Nat} (sorted : Sorted f m n)

variable (f) in
/-- The meetings below the indices `a` and `b`, the last one first. -/
def behind (a b : Nat) : List (Nat × Nat) := meets f (List.range a).reverse (List.range b).reverse

theorem behind_eq (m n : Nat) : behind f m n = (ahead f m n 0 0).reverse := by
  rw [behind, meets_reverse, ahead, List.range_eq_range', List.range_eq_range', Nat.sub_zero, Nat.sub_zero]

theorem range_reverse (a : Nat) : (List.range (a + 1)).reverse = a :: (List.range a).reverse := by
  rw [List.range_succ, List.reverse_append]
  rfl

theorem mem_range_reverse {a i : Nat} : i ∈ (List.range a).reverse ↔ i < a := by
  rw [List.mem_reverse, List.mem_range]

theorem behind_done {a b : Nat} (done : a = 0 ∨ b = 0) : behind f a b = [] := by
  rcases done with rfl | rfl
  · rfl
  · exact meets_nil_right _

variable {a b : Nat}

theorem behind_unused (unused : f.use a = false) : behind f (a + 1) b = behind f a b := by
  rw [behind, range_reverse]
  apply meets_drop_left
  intro j _
  exact meet_of_unused unused j

include sorted

theorem behind_stop (hb : b < n) (ends : f.hi' b ≤ f.lo a) : behind f (a + 1) (b + 1) = behind f a (b + 1) := by
  rw [behind, range_reverse a]
  apply meets_drop_left
  intro j member
  have le : j ≤ b := Nat.lt_succ_iff.mp (mem_range_reverse.mp member)
  exact meet_of_ends (.inr ((sorted.hi'_mono le hb).trans ends))

variable (ha : a < m)

include ha

theorem behind_skip (ends : f.hi a ≤ f.lo' b) : behind f (a + 1) (b + 1) = behind f (a + 1) b := by
  rw [behind, range_reverse b]
  apply meets_drop_right
  intro i member
  have le : i ≤ a := Nat.lt_succ_iff.mp (mem_range_reverse.mp member)
  exact meet_of_ends (.inl ((sorted.hi_mono le ha).trans ends))

variable (used : f.use a) (low : f.lo a < f.hi' b) (high : f.lo' b < f.hi a)

include used low high

omit ha in
theorem behind_take_row (hb : b < n) (first : f.lo' b ≤ f.lo a) :
    behind f (a + 1) (b + 1) =
      (max (f.lo a) (f.lo' b), min (f.hi a) (f.hi' b)) :: behind f a (b + 1) := by
  rw [behind, range_reverse a, behind, range_reverse b]
  apply meets_take_left (meet_of_used used low high)
  intro k member
  exact meet_of_ends (.inr ((sorted.columns k b (mem_range_reverse.mp member) hb).trans first))

theorem behind_take_column (first : f.lo a < f.lo' b) :
    behind f (a + 1) (b + 1) =
      (max (f.lo a) (f.lo' b), min (f.hi a) (f.hi' b)) :: behind f (a + 1) b := by
  rw [behind, range_reverse b, behind, range_reverse a]
  apply meets_take_right (meet_of_used used low high)
  intro k member
  exact meet_of_ends (.inl ((sorted.rows k a (mem_range_reverse.mp member) ha).trans first.le))

end

end Miracle.Meet
