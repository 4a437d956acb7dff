import Mathlib.Tactic
import Mathlib.Order.Bounds.Basic

/-! # Bitmaps, scans over them and runs of clear bits

A bitmap is a function from bit numbers to bits, so that a scan can look past the end of
the part that is in use.  The scans are the ones of a kernel's bitmap library; each has one
lemma that says all of its result.
-/

namespace Miracle.BitScan

abbrev Bitmap := Nat → Bool

/-- The bits `start, ..., start + len - 1` are set, the others stay. -/
def bitmapSet (m : Bitmap) (start len : Nat) : Bitmap := fun i =>
  if start ≤ i ∧ i < start + len then true else m i

def bitmapClear (m : Bitmap) (start len : Nat) : Bitmap := fun i =>
  if start ≤ i ∧ i < start + len then false else m i

def setBit (m : Bitmap) (i : Nat) : Bitmap := bitmapSet m i 1

theorem bitmapSet_inside {m : Bitmap} {start len i : Nat} (h : start ≤ i ∧ i < start + len) :
    bitmapSet m start len i = true := if_pos h

theorem bitmapSet_outside {m : Bitmap} {start len i : Nat} (h : ¬(start ≤ i ∧ i < start + len)) :
    bitmapSet m start len i = m i := if_neg h

theorem bitmapClear_inside {m : Bitmap} {start len i : Nat} (h : start ≤ i ∧ i < start + len) :
    bitmapClear m start len i = false := if_pos h

theorem bitmapClear_outside {m : Bitmap} {start len i : Nat} (h : ¬(start ≤ i ∧ i < start + len)) :
    bitmapClear m start len i = m i := if_neg h

theorem bitmapSet_true {m : Bitmap} {start len i : Nat} :
    bitmapSet m start len i = true ↔ (start ≤ i ∧ i < start + len) ∨ m i = true := by
  unfold bitmapSet
  split <;> simp_all

theorem bitmapClear_true {m : Bitmap} {start len i : Nat} :
    bitmapClear m start len i = true ↔ ¬(start ≤ i ∧ i < start + len) ∧ m i = true := by
  unfold bitmapClear
  split <;> simp_all

/-- The first of the next `k` bits from `i` on that is `v`, or the bit after them. -/
def firstFrom (m : Bitmap) (v : Bool) : Nat → Nat → Nat
  | 0, i => i
  | k + 1, i => if m i = v then i else firstFrom m v k (i + 1)

theorem firstFrom_spec (m : Bitmap) (v : Bool) (k i : Nat) :
    i ≤ firstFrom m v k i ∧ firstFrom m v k i ≤ i + k ∧
      (firstFrom m v k i < i + k → m (firstFrom m v k i) = v) ∧
      ∀ j, i ≤ j → j < firstFrom m v k i → m j = !v := by
  induction k generalizing i with
  | zero => exact ⟨le_rfl, le_rfl, fun h => absurd h (lt_irrefl _), fun j lo hi => by simp only [firstFrom] at hi; omega⟩
  | succ k ih =>
      unfold firstFrom
      split
      · rename_i hit
        exact ⟨le_rfl, by omega, fun _ => hit, fun j lo hi => by omega⟩
      · rename_i miss
        obtain ⟨lower, upper, found, before⟩ := ih (i + 1)
        refine ⟨by omega, by omega, fun h => found (by omega), ?_⟩
        intro j lo hi
        rcases Nat.eq_or_lt_of_le lo with rfl | above
        · exact Bool.eq_not_of_ne miss
        · exact before j above hi

/-- `find_next_bit` (`v` set) and `find_next_zero_bit` (`v` clear): the first such bit of
    `[offset, size)`, or `size`. -/
def findNext (m : Bitmap) (v : Bool) (size offset : Nat) : Nat :=
  if size ≤ offset then size else firstFrom m v (size - offset) offset

def findNextBit (m : Bitmap) (size offset : Nat) : Nat := findNext m true size offset

def findNextZeroBit (m : Bitmap) (size offset : Nat) : Nat := findNext m false size offset

theorem findNext_spec (m : Bitmap) (v : Bool) (size offset : Nat) :
    findNext m v size offset ≤ size ∧ (offset ≤ size → offset ≤ findNext m v size offset) ∧
      (findNext m v size offset < size → m (findNext m v size offset) = v) ∧
      ∀ j, offset ≤ j → j < findNext m v size offset → m j = !v := by
  unfold findNext
  split
  · rename_i past
    exact ⟨le_rfl, fun h => h, fun h => absurd h (lt_irrefl _), fun j lo hi => by omega⟩
  · obtain ⟨lower, upper, found, before⟩ := firstFrom_spec m v (size - offset) offset
    exact ⟨by omega, fun _ => lower, fun h => found (by omega), before⟩

theorem findNext_past {m : Bitmap} {v : Bool} {size offset : Nat} (past : size ≤ offset) :
    findNext m v size offset = size := if_pos past

theorem findNext_le {m : Bitmap} {v : Bool} {size offset q : Nat} (lower : offset ≤ q)
    (hit : m q = v) : findNext m v size offset ≤ q := by
  by_contra later
  have miss := (findNext_spec m v size offset).2.2.2 q lower (by omega)
  simp [hit] at miss

/-- A scan is fixed by what it finds: a bit of the value it looks for, or the end, with none
    before it. -/
theorem findNext_eq {m : Bitmap} {v : Bool} {size offset r : Nat} (lower : offset ≤ r) (upper : r ≤ size)
    (found : r < size → m r = v) (before : ∀ j, offset ≤ j → j < r → m j = !v) :
    findNext m v size offset = r := by
  obtain ⟨upper', lower', found', before'⟩ := findNext_spec m v size offset
  have lower'' := lower' (lower.trans upper)
  rcases lt_trichotomy (findNext m v size offset) r with less | same | more
  · have one := found' (by omega)
    have other := before _ lower'' less
    simp [one] at other
  · exact same
  · have one := found (by omega)
    have other := before' r lower more
    simp [one] at other

/-- The highest set bit below `k`, if there is one. -/
def lastBelow (m : Bitmap) : Nat → Option Nat
  | 0 => none
  | k + 1 => if m k = true then some k else lastBelow m k

/-- `find_last_bit`: the last set bit below `size`, or `size`. -/
def findLastBit (m : Bitmap) (size : Nat) : Nat := (lastBelow m size).getD size

theorem lastBelow_some {m : Bitmap} {k l : Nat} (h : lastBelow m k = some l) :
    l < k ∧ m l = true ∧ ∀ j, l < j → j < k → m j = false := by
  induction k with
  | zero => simp [lastBelow] at h
  | succ k ih =>
      unfold lastBelow at h
      split at h
      · rename_i hit
        obtain rfl : k = l := Option.some.inj h
        exact ⟨by omega, hit, fun j lo hi => by omega⟩
      · rename_i miss
        obtain ⟨below, set, after⟩ := ih h
        refine ⟨by omega, set, ?_⟩
        intro j lo hi
        rcases Nat.eq_or_lt_of_le (Nat.le_of_lt_succ hi) with rfl | less
        · exact Bool.eq_false_of_not_eq_true miss
        · exact after j lo less

theorem lastBelow_none {m : Bitmap} {k : Nat} (h : lastBelow m k = none) : ∀ j, j < k → m j = false := by
  induction k with
  | zero => exact fun j hi => absurd hi (Nat.not_lt_zero j)
  | succ k ih =>
      unfold lastBelow at h
      split at h
      · exact absurd h (Option.some_ne_none k)
      · rename_i miss
        intro j hi
        rcases Nat.eq_or_lt_of_le (Nat.le_of_lt_succ hi) with rfl | less
        · exact Bool.eq_false_of_not_eq_true miss
        · exact ih h j less

/-! ## Runs -/

/-- No bit of `[s, e)` is set. -/
def Clear (m : Bitmap) (s e : Nat) : Prop := ∀ i, s ≤ i → i < e → m i = false

theorem findLastBit_spec (m : Bitmap) (size : Nat) :
    (findLastBit m size = size ∧ Clear m 0 size) ∨
      (findLastBit m size < size ∧ m (findLastBit m size) = true ∧ Clear m (findLastBit m size + 1) size) := by
  unfold findLastBit
  cases last : lastBelow m size with
  | none => exact .inl ⟨rfl, fun i _ hi => lastBelow_none last i hi⟩
  | some l =>
      obtain ⟨below, set, after⟩ := lastBelow_some last
      exact .inr ⟨below, set, fun i lo hi => after i lo hi⟩

theorem Clear.mono {m : Bitmap} {s e s' e' : Nat} (h : Clear m s e) (lower : s ≤ s') (upper : e' ≤ e) :
    Clear m s' e' := fun i lo hi => h i (lower.trans lo) (hi.trans_le upper)

theorem Clear.join {m : Bitmap} {a b c d : Nat} (left : Clear m a b) (right : Clear m c d) (touch : c ≤ b) :
    Clear m a d := by
  intro i lo hi
  by_cases below : i < b
  · exact left i lo below
  · exact right i (by omega) hi

theorem Clear.set_bit_outside {m : Bitmap} {s e i : Nat} (h : Clear m s e) (set : m i = true) : i < s ∨ e ≤ i := by
  by_contra inside
  push Not at inside
  have clear := h i inside.1 inside.2
  simp [set] at clear

theorem Clear.of_bitmapSet {m : Bitmap} {a n s e : Nat} (h : Clear (bitmapSet m a n) s e) : Clear m s e := by
  intro i lo hi
  have clear := h i lo hi
  by_contra set
  have set' : bitmapSet m a n i = true := bitmapSet_true.mpr (.inr (Bool.eq_true_of_not_eq_false set))
  simp [set'] at clear

theorem Clear.bitmapClear {m : Bitmap} {a n s e : Nat} (h : Clear m s e) : Clear (bitmapClear m a n) s e := by
  intro i lo hi
  by_cases inside : a ≤ i ∧ i < a + n
  · exact bitmapClear_inside inside
  · rw [bitmapClear_outside inside]
    exact h i lo hi

theorem Clear.bitmapSet {m : Bitmap} {a n s e : Nat} (h : Clear m s e) (apart : e ≤ a ∨ a + n ≤ s) :
    Clear (bitmapSet m a n) s e := by
  intro i lo hi
  rw [bitmapSet_outside (by omega)]
  exact h i lo hi

end Miracle.BitScan
