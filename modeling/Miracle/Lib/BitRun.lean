import Miracle.Lib.BitScan

/-! # The longest run of clear bits in a window, and the runs at its edges

How the three lengths of the window `[0, w)` change when an area is set or cleared, and when
the window grows to the right.  All of them are stated for the longest run that there is, so
that a summary kept beside a bitmap can be compared with the bitmap itself.
-/

namespace Miracle.BitScan

def Longest (m : Bitmap) (w n : Nat) : Prop := IsGreatest {k | ∃ s, s + k ≤ w ∧ Clear m s (s + k)} n

def LeftRun (m : Bitmap) (w n : Nat) : Prop := IsGreatest {k | k ≤ w ∧ Clear m 0 k} n

def RightRun (m : Bitmap) (w n : Nat) : Prop := IsGreatest {k | k ≤ w ∧ Clear m (w - k) w} n

/-- `[s, e)` is a run of clear bits of the window that cannot be made longer. -/
structure MaximalRun (m : Bitmap) (w s e : Nat) : Prop where
  nonempty : s < e
  inside : e ≤ w
  clear : Clear m s e
  before : 0 < s → m (s - 1) = true
  after : e < w → m e = true

/-- There is one maximal run around a bit. -/
theorem MaximalRun.unique {m : Bitmap} {w s e s' e' i : Nat} (one : MaximalRun m w s e) (other : MaximalRun m w s' e')
    (lower : s ≤ i) (upper : i < e) (lower' : s' ≤ i) (upper' : i < e') : s = s' ∧ e = e' := by
  have inside := one.inside
  have inside' := other.inside
  refine ⟨?_, ?_⟩
  · rcases lt_trichotomy s s' with before | same | after
    · have outside := one.clear.set_bit_outside (other.before (by omega))
      omega
    · exact same
    · have outside := other.clear.set_bit_outside (one.before (by omega))
      omega
  · rcases lt_trichotomy e e' with before | same | after
    · have outside := other.clear.set_bit_outside (one.after (by omega))
      omega
    · exact same
    · have outside := one.clear.set_bit_outside (other.after (by omega))
      omega

theorem Longest.le {m : Bitmap} {w n s e : Nat} (h : Longest m w n) (inside : e ≤ w) (clear : Clear m s e) :
    e - s ≤ n := by
  rcases Nat.le_total e s with empty | proper
  · omega
  · exact h.2 ⟨s, by omega, clear.mono le_rfl (by omega)⟩

theorem longest_of {m : Bitmap} {w n s : Nat} (inside : s + n ≤ w) (clear : Clear m s (s + n))
    (most : ∀ s e, s < e → e ≤ w → Clear m s e → e - s ≤ n) : Longest m w n := by
  refine ⟨⟨s, inside, clear⟩, ?_⟩
  rintro k ⟨s', inside', clear'⟩
  rcases Nat.eq_zero_or_pos k with rfl | pos
  · exact Nat.zero_le n
  · have bound := most s' (s' + k) (by omega) inside' clear'
    omega

theorem leftRun_iff {m : Bitmap} {w n : Nat} :
    LeftRun m w n ↔ n ≤ w ∧ Clear m 0 n ∧ (n < w → m n = true) := by
  constructor
  · rintro ⟨⟨inside, clear⟩, most⟩
    refine ⟨inside, clear, fun proper => ?_⟩
    by_contra unset
    have longer : n + 1 ≤ n := most ⟨proper, fun i _ hi => by
      rcases Nat.eq_or_lt_of_le (Nat.le_of_lt_succ hi) with rfl | below
      · exact Bool.eq_false_of_not_eq_true unset
      · exact clear i (Nat.zero_le i) below⟩
    omega
  · rintro ⟨inside, clear, stop⟩
    refine ⟨⟨inside, clear⟩, ?_⟩
    rintro k ⟨inside', clear'⟩
    by_contra longer
    have edge := clear'.set_bit_outside (stop (by omega))
    omega

theorem rightRun_iff {m : Bitmap} {w n : Nat} :
    RightRun m w n ↔ n ≤ w ∧ Clear m (w - n) w ∧ (n < w → m (w - n - 1) = true) := by
  constructor
  · rintro ⟨⟨inside, clear⟩, most⟩
    refine ⟨inside, clear, fun proper => ?_⟩
    by_contra unset
    have longer : n + 1 ≤ n := most ⟨proper, fun i lo hi => by
      rcases Nat.eq_or_lt_of_le lo with rfl | above
      · exact Bool.eq_false_of_not_eq_true unset
      · exact clear i (by omega) hi⟩
    omega
  · rintro ⟨inside, clear, stop⟩
    refine ⟨⟨inside, clear⟩, ?_⟩
    rintro k ⟨inside', clear'⟩
    by_contra longer
    have edge := clear'.set_bit_outside (stop (by omega))
    omega

/-! ## Windows whose bits agree -/

theorem Clear.congr {m m' : Bitmap} {w s e : Nat} (same : ∀ i, i < w → m i = m' i) (inside : e ≤ w) :
    Clear m s e ↔ Clear m' s e := by
  constructor
  · exact fun h i lo hi => (same i (by omega)).symm.trans (h i lo hi)
  · exact fun h i lo hi => (same i (by omega)).trans (h i lo hi)

theorem Longest.congr {m m' : Bitmap} {w n : Nat} (same : ∀ i, i < w → m i = m' i) (h : Longest m w n) :
    Longest m' w n := by
  obtain ⟨⟨s, inside, clear⟩, -⟩ := id h
  refine longest_of inside ((Clear.congr same inside).mp clear) ?_
  exact fun s e _ inside' clear' => h.le inside' ((Clear.congr same inside').mpr clear')

theorem LeftRun.congr {m m' : Bitmap} {w n : Nat} (same : ∀ i, i < w → m i = m' i) (h : LeftRun m w n) :
    LeftRun m' w n := by
  obtain ⟨inside, clear, stop⟩ := leftRun_iff.mp h
  exact leftRun_iff.mpr ⟨inside, (Clear.congr same inside).mp clear, fun lt => (same n lt).symm.trans (stop lt)⟩

theorem RightRun.congr {m m' : Bitmap} {w n : Nat} (same : ∀ i, i < w → m i = m' i) (h : RightRun m w n) :
    RightRun m' w n := by
  obtain ⟨inside, clear, stop⟩ := rightRun_iff.mp h
  exact rightRun_iff.mpr ⟨inside, (Clear.congr same le_rfl).mp clear,
    fun lt => (same _ (by omega)).symm.trans (stop lt)⟩

theorem MaximalRun.congr {m m' : Bitmap} {w s e : Nat} (same : ∀ i, i < w → m i = m' i) (h : MaximalRun m w s e) :
    MaximalRun m' w s e := by
  have proper := h.nonempty
  have inside := h.inside
  refine ⟨proper, inside, (Clear.congr same inside).mp h.clear, fun pos => ?_, fun lt => ?_⟩
  · rw [← same (s - 1) (by omega)]
    exact h.before pos
  · rw [← same e lt]
    exact h.after lt

/-! ## Windows all set or all clear -/

theorem longest_full {m : Bitmap} {w : Nat} (full : ∀ i, i < w → m i = true) : Longest m w 0 := by
  refine longest_of (Nat.zero_le w) (fun i lo hi => by omega) ?_
  intro s e proper inside clear
  have edge := clear.set_bit_outside (full s (by omega))
  omega

theorem leftRun_full {m : Bitmap} {w : Nat} (full : ∀ i, i < w → m i = true) : LeftRun m w 0 :=
  leftRun_iff.mpr ⟨Nat.zero_le w, fun i lo hi => by omega, fun lt => full 0 lt⟩

theorem rightRun_full {m : Bitmap} {w : Nat} (full : ∀ i, i < w → m i = true) : RightRun m w 0 :=
  rightRun_iff.mpr ⟨Nat.zero_le w, fun i lo hi => by omega, fun lt => full _ (by omega)⟩

theorem longest_empty {m : Bitmap} {w : Nat} (clear : Clear m 0 w) : Longest m w w :=
  longest_of (s := 0) (by omega) (by simpa using clear) (fun s e _ inside _ => by omega)

theorem leftRun_empty {m : Bitmap} {w : Nat} (clear : Clear m 0 w) : LeftRun m w w :=
  leftRun_iff.mpr ⟨le_rfl, clear, fun lt => absurd lt (lt_irrefl w)⟩

theorem rightRun_empty {m : Bitmap} {w : Nat} (clear : Clear m 0 w) : RightRun m w w :=
  rightRun_iff.mpr ⟨le_rfl, by simpa using clear, fun lt => absurd lt (lt_irrefl w)⟩

/-! ## Setting a clear area -/

section Set

variable {m : Bitmap} {w n s e : Nat}

/-- A longest run that does not hold the area's first bit does not meet the area. -/
theorem Longest.apart {h : Nat} (longest : Longest m w n) (run : Clear m h (h + n)) (inside : h + n ≤ w)
    (area : Clear m s e) (miss : ¬(h ≤ s ∧ s < h + n)) : h + n ≤ s ∨ e ≤ h := by
  by_contra meets
  push Not at meets
  have bound := longest.le inside (area.join run meets.2.le)
  omega

theorem Longest.set {h : Nat} (longest : Longest m w n) (run : Clear m h (h + n)) (inside : h + n ≤ w)
    (apart : h + n ≤ s ∨ e ≤ h) (area : s ≤ e) : Longest (bitmapSet m s (e - s)) w n := by
  refine longest_of inside (run.bitmapSet (by omega)) ?_
  exact fun s e _ inside' clear' => longest.le inside' clear'.of_bitmapSet

theorem LeftRun.set (left : LeftRun m w n) (proper : s < e) (inside : e ≤ w) :
    LeftRun (bitmapSet m s (e - s)) w (min n s) := by
  obtain ⟨most, clear, stop⟩ := leftRun_iff.mp left
  refine leftRun_iff.mpr ⟨by omega, (clear.mono le_rfl (by omega)).bitmapSet (by omega), ?_⟩
  intro lt
  rw [bitmapSet_true]
  rcases Nat.lt_or_ge n s with short | long
  · rw [Nat.min_eq_left short.le] at lt ⊢
    exact .inr (stop lt)
  · rw [Nat.min_eq_right long]
    exact .inl (by omega)

theorem RightRun.set (right : RightRun m w n) (proper : s < e) (inside : e ≤ w) :
    RightRun (bitmapSet m s (e - s)) w (min n (w - e)) := by
  obtain ⟨most, clear, stop⟩ := rightRun_iff.mp right
  refine rightRun_iff.mpr ⟨by omega, (clear.mono (by omega) le_rfl).bitmapSet (by omega), ?_⟩
  intro lt
  rw [bitmapSet_true]
  rcases Nat.lt_or_ge n (w - e) with short | long
  · rw [Nat.min_eq_left short.le] at lt ⊢
    exact .inr (stop lt)
  · rw [Nat.min_eq_right long]
    exact .inl (by omega)

end Set

/-! ## Clearing an area -/

section ClearArea

variable {m : Bitmap} {w n s k a b : Nat}

/-- The longest run after a clearing is the old one or the run around the cleared area. -/
theorem Longest.clear (longest : Longest m w n) (merged : MaximalRun (bitmapClear m s k) w a b) (lower : a ≤ s)
    (upper : s + k ≤ b) :
    Longest (bitmapClear m s k) w (max n (b - a)) := by
  have proper := merged.nonempty
  have most : ∀ x y, x < y → y ≤ w → Clear (bitmapClear m s k) x y → y - x ≤ max n (b - a) := by
    intro x y ordered below clear
    by_cases apart : y ≤ s ∨ s + k ≤ x
    · have old : Clear m x y := by
        intro i lo hi
        have outside : ¬(s ≤ i ∧ i < s + k) := by omega
        rw [← bitmapClear_outside (m := m) outside]
        exact clear i lo hi
      have bound := longest.le below old
      omega
    · -- a run that meets the cleared area stays between the set bits around it
      have start : a ≤ x := by
        by_contra before
        have edge := clear.set_bit_outside (merged.before (by omega))
        omega
      have stop : y ≤ b := by
        by_contra beyond
        have edge := clear.set_bit_outside (merged.after (by omega))
        omega
      omega
  rcases Nat.le_total n (b - a) with short | long
  · rw [Nat.max_eq_right short] at most ⊢
    have room := merged.inside
    exact longest_of (s := a) (by omega) (merged.clear.mono le_rfl (by omega)) most
  · rw [Nat.max_eq_left long] at most ⊢
    obtain ⟨⟨h, inside, run⟩, -⟩ := id longest
    exact longest_of inside run.bitmapClear most

theorem MaximalRun.leftRun (merged : MaximalRun m w 0 b) : LeftRun m w b :=
  leftRun_iff.mpr ⟨merged.inside, merged.clear, merged.after⟩

theorem MaximalRun.rightRun (merged : MaximalRun m w a w) : RightRun m w (w - a) := by
  have proper := merged.nonempty
  refine rightRun_iff.mpr ⟨by omega, merged.clear.mono (by omega) le_rfl, fun lt => ?_⟩
  rw [show w - (w - a) = a by omega]
  exact merged.before (by omega)

theorem LeftRun.clear (left : LeftRun m w n) (merged : MaximalRun (bitmapClear m s k) w a b)
    (lower : a ≤ s) (away : 0 < a) : LeftRun (bitmapClear m s k) w n := by
  obtain ⟨most, clear, stop⟩ := leftRun_iff.mp left
  have edge := merged.before away
  have short : n < a := by
    by_contra long
    have outside := (clear.bitmapClear (a := s) (n := k)).set_bit_outside edge
    omega
  refine leftRun_iff.mpr ⟨most, clear.bitmapClear, fun lt => ?_⟩
  rw [bitmapClear_outside (by omega)]
  exact stop lt

theorem RightRun.clear (right : RightRun m w n) (merged : MaximalRun (bitmapClear m s k) w a b)
    (upper : s + k ≤ b) (away : b < w) : RightRun (bitmapClear m s k) w n := by
  obtain ⟨most, clear, stop⟩ := rightRun_iff.mp right
  have edge := merged.after away
  have short : b < w - n := by
    by_contra long
    have outside := (clear.bitmapClear (a := s) (n := k)).set_bit_outside edge
    omega
  refine rightRun_iff.mpr ⟨most, clear.bitmapClear, fun lt => ?_⟩
  rw [bitmapClear_outside (by omega)]
  exact stop lt

end ClearArea

/-! ## A window that grows -/

section Grow

variable {m : Bitmap} {p q n : Nat}

theorem Longest.grow_set (longest : Longest m p n) (below : p ≤ q) (full : ∀ i, p ≤ i → i < q → m i = true) :
    Longest m q n := by
  obtain ⟨⟨s, inside, clear⟩, -⟩ := id longest
  refine longest_of (inside.trans below) clear ?_
  intro x y ordered inside' clear'
  by_cases beyond : p < y
  · have edge := clear'.set_bit_outside (full (y - 1) (by omega) (by omega))
    omega
  · exact longest.le (by omega) clear'

theorem Longest.grow_clear (longest : Longest m p n) (below : p ≤ q) (edge : 0 < p → m (p - 1) = true)
    (clear : Clear m p q) : Longest m q (max n (q - p)) := by
  have most : ∀ x y, x < y → y ≤ q → Clear m x y → y - x ≤ max n (q - p) := by
    intro x y ordered inside' clear'
    by_cases start : p ≤ x
    · omega
    · by_cases stop : y ≤ p
      · have bound := longest.le stop clear'
        omega
      · have outside := clear'.set_bit_outside (edge (by omega))
        omega
  rcases Nat.le_total n (q - p) with short | long
  · rw [Nat.max_eq_right short] at most ⊢
    exact longest_of (s := p) (by omega) (clear.mono le_rfl (by omega)) most
  · rw [Nat.max_eq_left long] at most ⊢
    obtain ⟨⟨s, inside, run⟩, -⟩ := id longest
    exact longest_of (inside.trans below) run most

theorem LeftRun.grow (left : LeftRun m p n) (below : p ≤ q) (edge : 0 < p → m (p - 1) = true) (pos : 0 < p) :
    LeftRun m q n := by
  obtain ⟨most, clear, stop⟩ := leftRun_iff.mp left
  have proper : n < p := by
    by_contra whole
    have outside := clear.set_bit_outside (edge pos)
    omega
  exact leftRun_iff.mpr ⟨most.trans below, clear, fun _ => stop proper⟩

end Grow

/-! ## Counting the clear bits -/

/-- The number of clear bits of `[0, w)`. -/
def clearBits (m : Bitmap) (w : Nat) : Nat := ((Finset.range w).filter fun i => m i = false).card

theorem clearBits_empty {m : Bitmap} {w : Nat} (clear : Clear m 0 w) : clearBits m w = w := by
  unfold clearBits
  rw [Finset.filter_true_of_mem, Finset.card_range]
  exact fun i mem => clear i (Nat.zero_le i) (Finset.mem_range.mp mem)

theorem clearBits_congr {m m' : Bitmap} {w : Nat} (same : ∀ i, i < w → m i = m' i) : clearBits m w = clearBits m' w := by
  unfold clearBits
  congr 1
  apply Finset.filter_congr
  intro i mem
  rw [same i (Finset.mem_range.mp mem)]

/-- The bits of an area are clear bits that are lost when it is set. -/
theorem clearBits_set {m : Bitmap} {w s n : Nat} (clear : Clear m s (s + n)) (inside : s + n ≤ w) :
    clearBits (bitmapSet m s n) w + n = clearBits m w := by
  have area : Finset.Ico s (s + n) ⊆ (Finset.range w).filter fun i => m i = false := by
    intro i mem
    obtain ⟨lo, hi⟩ := Finset.mem_Ico.mp mem
    exact Finset.mem_filter.mpr ⟨Finset.mem_range.mpr (by omega), clear i lo hi⟩
  have rest : (Finset.range w).filter (fun i => bitmapSet m s n i = false) =
      ((Finset.range w).filter fun i => m i = false) \ Finset.Ico s (s + n) := by
    ext i
    rw [Finset.mem_sdiff, Finset.mem_filter, Finset.mem_filter, Finset.mem_Ico]
    by_cases within : s ≤ i ∧ i < s + n
    · simp [bitmapSet_inside within, within]
    · simp only [bitmapSet_outside within, within, not_false_eq_true, and_true]
  have count := Finset.card_sdiff_add_card_eq_card area
  rw [← rest, Nat.card_Ico, Nat.add_sub_cancel_left] at count
  exact count

theorem bitmapSet_bitmapClear {m : Bitmap} {s n : Nat} (full : ∀ i, s ≤ i → i < s + n → m i = true) :
    bitmapSet (bitmapClear m s n) s n = m := by
  funext i
  by_cases within : s ≤ i ∧ i < s + n
  · rw [bitmapSet_inside within, full i within.1 within.2]
  · rw [bitmapSet_outside within, bitmapClear_outside within]

theorem clearBits_clear {m : Bitmap} {w s n : Nat} (full : ∀ i, s ≤ i → i < s + n → m i = true) (inside : s + n ≤ w) :
    clearBits (bitmapClear m s n) w = clearBits m w + n := by
  have freed : Clear (bitmapClear m s n) s (s + n) := fun i lo hi => bitmapClear_inside ⟨lo, hi⟩
  have count := clearBits_set freed inside
  rw [bitmapSet_bitmapClear full] at count
  exact count.symm

end Miracle.BitScan
