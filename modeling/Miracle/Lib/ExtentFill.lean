import Miracle.Lib.Extent

/-! # Filling and joining lists of extents

`fill` gives the missing addresses of an interval a tag and leaves the others
alone.  The number of extents it adds depends on the covered set only: it is the
number of addresses at which an uncovered stretch of the interval begins.
-/

namespace Miracle.Extent

variable {τ : Type}

/-- `[lo, hi)` as a list of at most one extent. -/
def gap (lo hi : Nat) (tag : τ) : List (Extent τ) := if lo < hi then [⟨lo, hi - lo, tag⟩] else []

/-- Add the parts of `[base, hi)` that no extent of the list covers. -/
def fill (hi : Nat) (tag : τ) : List (Extent τ) → Nat → List (Extent τ)
  | [], base => gap base hi tag
  | e :: l, base =>
      if hi ≤ e.base then gap base hi tag ++ e :: l
      else if e.stop ≤ base then e :: fill hi tag l base
      else gap base e.base tag ++ e :: fill hi tag l (min e.stop hi)

/-- How many extents `fill` adds. -/
def pieces (hi : Nat) : List (Extent τ) → Nat → Nat
  | [], base => if base < hi then 1 else 0
  | e :: l, base =>
      if hi ≤ e.base then (if base < hi then 1 else 0)
      else if e.stop ≤ base then pieces hi l base
      else (if base < e.base then 1 else 0) + pieces hi l (min e.stop hi)

theorem mem_gap {lo hi : Nat} {tag : τ} {e : Extent τ} (member : e ∈ gap lo hi tag) :
    e.base = lo ∧ e.stop = hi ∧ 0 < e.size := by
  unfold gap at member
  split at member
  · obtain rfl := List.mem_singleton.mp member
    have h : lo < hi := ‹_›
    exact ⟨rfl, Nat.add_sub_cancel' h.le, Nat.sub_pos_of_lt h⟩
  · simp at member

theorem length_gap (lo hi : Nat) (tag : τ) :
    (gap lo hi tag).length = if lo < hi then 1 else 0 := by
  unfold gap
  split <;> rfl

theorem lookup_gap (lo hi : Nat) (tag : τ) (a : Nat) :
    lookup (gap lo hi tag) a = if lo ≤ a ∧ a < hi then some tag else none := by
  unfold gap
  split
  · rw [lookup_cons, lookup_nil]
    congr 1
    simp only [Contains, stop, eq_iff_iff]
    omega
  · rw [lookup_nil, if_neg (by omega)]

theorem Ordered.gap (lo hi : Nat) (tag : τ) : Ordered (Extent.gap lo hi tag) := by
  unfold Extent.gap
  split
  · exact cons_iff.mpr ⟨by simp only; omega, by simp, .nil⟩
  · exact .nil

theorem length_fill (hi : Nat) (tag : τ) (l : List (Extent τ)) (base : Nat) :
    (fill hi tag l base).length = l.length + pieces hi l base := by
  induction l generalizing base with
  | nil => simp [fill, pieces, length_gap]
  | cons e l ih =>
      simp only [fill, pieces]
      split
      · simp only [List.length_append, List.length_cons, length_gap]
        omega
      · split
        · simp only [List.length_cons, ih]
          omega
        · simp only [List.length_append, List.length_cons, length_gap, ih]
          omega

/-- A member of the filled list is old or lies inside the interval. -/
theorem fill_of_pieces_eq_zero {hi : Nat} (tag : τ) {l : List (Extent τ)} {base : Nat}
    (h : pieces hi l base = 0) : fill hi tag l base = l := by
  induction l generalizing base with
  | nil =>
      have done : ¬ base < hi := by simpa [pieces] using h
      simp [fill, gap, done]
  | cons e l ih =>
      simp only [pieces, fill] at h ⊢
      split
      · rename_i above
        have done : ¬ base < hi := by simpa [above] using h
        simp [gap, done]
      · rename_i above
        rw [if_neg above] at h
        split
        · rename_i below
          rw [if_pos below] at h
          rw [ih h]
        · rename_i below
          rw [if_neg below] at h
          have done : ¬ base < e.base := by
            intro lt
            simp [lt] at h
          rw [ih (by omega)]
          simp [gap, done]

theorem mem_fill {hi : Nat} {tag : τ} {l : List (Extent τ)} {base : Nat} {e : Extent τ}
    (member : e ∈ fill hi tag l base) :
    e ∈ l ∨ (base ≤ e.base ∧ e.stop ≤ hi ∧ 0 < e.size) := by
  induction l generalizing base with
  | nil =>
      obtain ⟨h1, h2, h3⟩ := mem_gap member
      exact .inr ⟨by omega, by omega, h3⟩
  | cons x l ih =>
      simp only [fill] at member
      split at member
      · rcases List.mem_append.mp member with member | member
        · obtain ⟨h1, h2, h3⟩ := mem_gap member
          exact .inr ⟨by omega, by omega, h3⟩
        · exact .inl member
      · split at member
        · rcases List.mem_cons.mp member with rfl | member
          · exact .inl (by simp)
          · exact (ih member).imp_left (List.mem_cons_of_mem _)
        · rcases List.mem_append.mp member with member | member
          · obtain ⟨h1, h2, h3⟩ := mem_gap member
            exact .inr ⟨by omega, by omega, h3⟩
          · rcases List.mem_cons.mp member with rfl | member
            · exact .inl (by simp)
            · rcases ih member with old | ⟨h1, h2, h3⟩
              · exact .inl (List.mem_cons_of_mem _ old)
              · simp only [stop] at *
                exact .inr ⟨by omega, by omega, h3⟩

theorem Ordered.fill {l : List (Extent τ)} (h : Ordered l) (hi : Nat) (tag : τ) (base : Nat) :
    Ordered (Extent.fill hi tag l base) := by
  induction l generalizing base with
  | nil => exact .gap ..
  | cons e l ih =>
      obtain ⟨pos, after, rest⟩ := cons_iff.mp h
      simp only [Extent.fill]
      split
      · refine (Ordered.gap ..).append h ?_
        intro x hx y hy
        obtain ⟨_, h2, _⟩ := mem_gap hx
        rcases List.mem_cons.mp hy with rfl | hy
        · omega
        · have := after y hy
          simp only [stop] at *
          omega
      · split
        · refine cons_iff.mpr ⟨pos, ?_, ih rest base⟩
          intro x hx
          rcases mem_fill hx with old | new
          · exact after x old
          · simp only [stop] at *
            omega
        · have tail : Ordered (e :: Extent.fill hi tag l (min e.stop hi)) := by
            refine cons_iff.mpr ⟨pos, ?_, ih rest _⟩
            intro x hx
            rcases mem_fill hx with old | new
            · exact after x old
            · -- past the interval nothing is added
              simp only [stop] at *
              omega
          refine (Ordered.gap ..).append tail ?_
          intro x hx y hy
          obtain ⟨_, h2, _⟩ := mem_gap hx
          rcases List.mem_cons.mp hy with rfl | hy
          · omega
          · have := (cons_iff.mp tail).2.1 y hy
            simp only [stop] at *
            omega

/-- The map after `fill`: old addresses keep their tag, the missing ones of the
    interval get the new one. -/
theorem lookup_fill {l : List (Extent τ)} (h : Ordered l) (hi : Nat) (tag : τ) (base a : Nat) :
    lookup (fill hi tag l base) a =
      (lookup l a).or (if base ≤ a ∧ a < hi then some tag else none) := by
  induction l generalizing base with
  | nil => simp [fill, lookup_gap]
  | cons e l ih =>
      obtain ⟨pos, after, rest⟩ := Ordered.cons_iff.mp h
      simp only [fill]
      split
      · -- the interval ends below every extent
        have above : base ≤ a ∧ a < hi → lookup (e :: l) a = none := by
          intro range
          rw [lookup_eq_none_iff]
          intro x hx inside
          rcases List.mem_cons.mp hx with rfl | hx
          · simp only [Contains] at inside
            omega
          · have := after x hx
            simp only [Contains, stop] at *
            omega
        rw [lookup_append, lookup_gap]
        split
        · rw [above ‹_›]; rfl
        · simp
      · split
        · rw [lookup_cons, lookup_cons, ih rest]
          split <;> simp
        · rw [lookup_append, lookup_gap, lookup_cons, lookup_cons, ih rest]
          by_cases inside : e.Contains a
          · have : ¬ (base ≤ a ∧ a < e.base) := by simp only [Contains] at inside; omega
            simp only [if_pos inside, if_neg this]
            rfl
          · simp only [if_neg inside]
            -- below `e` only the new piece can hold `a`, above it only the rest can
            by_cases before : a < e.base
            · have none : lookup l a = none := by
                rw [lookup_eq_none_iff]
                intro x hx inside
                have := after x hx
                simp only [Contains, stop] at *
                omega
              have : ¬ (min e.stop hi ≤ a ∧ a < hi) := by simp only [stop] at *; omega
              simp only [none, Option.none_or, if_neg this, Option.or_none]
              congr 1
              simp only [eq_iff_iff]
              omega
            · rw [if_neg (by omega), Option.none_or]
              congr 2
              simp only [Contains, eq_iff_iff] at *
              omega

theorem total_le_fill (hi : Nat) (tag : τ) (l : List (Extent τ)) (base : Nat) :
    total l ≤ total (fill hi tag l base) := by
  induction l generalizing base with
  | nil => simp
  | cons e l ih =>
      simp only [fill]
      have := ih base
      have := ih (min e.stop hi)
      split
      · simp
      · split <;> simp only [total_append, total_cons] <;> omega

/-! ## Where uncovered stretches begin -/

/-- The addresses of `[base, hi)` at which an uncovered stretch begins. -/
def starts (covered : Nat → Prop) [DecidablePred covered] (base hi : Nat) : Finset Nat :=
  (Finset.Ico base hi).filter (fun x => ¬ covered x ∧ (x = base ∨ covered (x - 1)))

theorem mem_starts {covered : Nat → Prop} [DecidablePred covered] {base hi x : Nat} :
    x ∈ starts covered base hi ↔
      (base ≤ x ∧ x < hi) ∧ ¬ covered x ∧ (x = base ∨ covered (x - 1)) := by
  simp [starts]

/-- The set of addresses a list covers. -/
def Covered (l : List (Extent τ)) (a : Nat) : Prop := (lookup l a).isSome

instance (l : List (Extent τ)) : DecidablePred (Covered l) :=
  fun a => inferInstanceAs (Decidable ((lookup l a).isSome = true))

theorem covered_cons {e : Extent τ} {l : List (Extent τ)} {a : Nat} :
    Covered (e :: l) a ↔ e.Contains a ∨ Covered l a := by
  unfold Covered
  rw [lookup_cons]
  split <;> simp [*]

theorem not_covered_iff {l : List (Extent τ)} {a : Nat} : ¬ Covered l a ↔ lookup l a = none := by
  simp [Covered]

theorem not_covered_of_below {l : List (Extent τ)} {a : Nat} (h : ∀ e ∈ l, a < e.base) :
    ¬ Covered l a := by
  rw [not_covered_iff, lookup_eq_none_iff]
  intro e member inside
  have := h e member
  simp only [Contains] at inside
  omega

private theorem card_starts_uncovered {l : List (Extent τ)} {base hi : Nat}
    (h : ∀ x, base ≤ x → x < hi → ¬ Covered l x) :
    (starts (Covered l) base hi).card = if base < hi then 1 else 0 := by
  have only : starts (Covered l) base hi = if base < hi then {base} else ∅ := by
    ext x
    rw [mem_starts]
    constructor
    · rintro ⟨⟨h1, h2⟩, _, rfl | prev⟩
      · rw [if_pos h2]; simp
      · by_cases eq : x = base
        · subst eq; rw [if_pos h2]; simp
        · exact absurd prev (h (x - 1) (by omega) (by omega))
    · intro member
      split at member
      · obtain rfl := Finset.mem_singleton.mp member
        exact ⟨⟨le_rfl, ‹_›⟩, h x le_rfl ‹_›, .inl rfl⟩
      · simp at member
  rw [only]
  split <;> simp

/-- `fill` adds one extent for each beginning of an uncovered stretch. -/
theorem pieces_eq_card {l : List (Extent τ)} (h : Ordered l) (hi base : Nat) :
    pieces hi l base = (starts (Covered l) base hi).card := by
  induction l generalizing base with
  | nil => rw [card_starts_uncovered (fun _ _ _ => by simp [Covered])]; rfl
  | cons e l ih =>
      obtain ⟨pos, after, rest⟩ := Ordered.cons_iff.mp h
      have tail {a : Nat} (ha : a < e.stop) : ¬ Covered l a :=
        not_covered_of_below (fun x hx => lt_of_lt_of_le ha (after x hx))
      simp only [pieces]
      split
      · rw [card_starts_uncovered]
        intro x _ hx covered
        rcases covered_cons.mp covered with inside | covered
        · simp only [Contains] at inside
          omega
        · exact tail (by simp only [stop]; omega) covered
      · split
        · rw [ih rest]
          congr 1
          ext x
          simp only [mem_starts, covered_cons, Contains]
          constructor
          · rintro ⟨range, h1, h2⟩
            exact ⟨range, by rintro (c | c) <;> [omega; exact h1 c], h2.imp_right .inr⟩
          · rintro ⟨range, h1, h2⟩
            refine ⟨range, fun c => h1 (.inr c), ?_⟩
            rcases h2 with h2 | h2 | h2
            · exact .inl h2
            · exact .inl (by omega)
            · exact .inr h2
        · -- the stretch below `e` begins at `base`; behind `e` the list continues
          rw [ih rest]
          have split_at : starts (Covered (e :: l)) base hi =
              (if base < e.base then {base} else ∅) ∪ starts (Covered l) (min e.stop hi) hi := by
            ext x
            simp only [Finset.mem_union, mem_starts, covered_cons, Contains]
            constructor
            · rintro ⟨⟨h1, h2⟩, free, begins⟩
              by_cases below : x < e.base
              · left
                have : x = base := by
                  rcases begins with h | h | h
                  · exact h
                  · omega
                  · exact absurd h (tail (by simp only [stop]; omega))
                subst this
                rw [if_pos below]
                simp
              · right
                have past : e.stop ≤ x := by
                  by_contra
                  exact free (.inl ⟨by omega, by omega⟩)
                refine ⟨⟨by omega, h2⟩, fun c => free (.inr c), ?_⟩
                by_cases eq : x = e.stop
                · exact .inl (by omega)
                · rcases begins with h | h | h
                  · omega
                  · omega
                  · exact .inr h
            · rintro (member | ⟨⟨h1, h2⟩, free, begins⟩)
              · split at member
                · obtain rfl := Finset.mem_singleton.mp member
                  refine ⟨⟨le_rfl, by omega⟩, ?_, .inl rfl⟩
                  rintro (c | c)
                  · omega
                  · exact tail (by simp only [stop]; omega) c
                · simp at member
              · have past : e.stop ≤ x := by omega
                refine ⟨⟨by omega, h2⟩, ?_, ?_⟩
                · rintro (c | c)
                  · omega
                  · exact free c
                · right
                  rcases begins with h | h
                  · exact .inl ⟨by simp only [stop] at *; omega, by simp only [stop] at *; omega⟩
                  · exact .inr h
          have apart : Disjoint (if base < e.base then {base} else ∅)
              (starts (Covered l) (min e.stop hi) hi) := by
            rw [Finset.disjoint_left]
            intro x member
            split at member
            · obtain rfl := Finset.mem_singleton.mp member
              rw [mem_starts]
              simp only [stop] at *
              omega
            · simp at member
          rw [split_at, Finset.card_union_of_disjoint apart]
          split <;> simp

/-- The number of added extents depends on the covered set only. -/
theorem pieces_congr {σ : Type} {l : List (Extent τ)} {m : List (Extent σ)} (hl : Ordered l)
    (hm : Ordered m) {hi base : Nat}
    (same : ∀ a, Covered l a ↔ Covered m a) : pieces hi l base = pieces hi m base := by
  rw [pieces_eq_card hl, pieces_eq_card hm]
  congr 1
  ext x
  simp only [mem_starts, same]

/-- Uncovering `[lo, hi')` opens at most one new stretch. -/
theorem pieces_of_removed {l m : List (Extent τ)} (hl : Ordered l) (hm : Ordered m)
    {base hi lo hi' : Nat} (same : ∀ a, Covered m a ↔ Covered l a ∧ ¬ (lo ≤ a ∧ a < hi')) :
    pieces hi m base ≤ pieces hi l base + 1 := by
  rw [pieces_eq_card hl, pieces_eq_card hm]
  have sub : starts (Covered m) base hi ⊆ insert (max lo base) (starts (Covered l) base hi) := by
    intro x
    simp only [mem_starts, Finset.mem_insert, same]
    rintro ⟨range, free, begins⟩
    by_cases old : Covered l x
    · left
      have inside : lo ≤ x ∧ x < hi' := by
        by_contra out
        exact free ⟨old, out⟩
      rcases begins with rfl | ⟨_, out⟩ <;> omega
    · exact .inr ⟨range, old, begins.imp_right And.left⟩
  exact (Finset.card_le_card sub).trans (Finset.card_insert_le _ _)

/-- Covering `[lo, hi')` as well opens at most one new stretch. -/
theorem pieces_of_added {l m : List (Extent τ)} (hl : Ordered l) (hm : Ordered m)
    {base hi lo hi' : Nat} (same : ∀ a, Covered m a ↔ Covered l a ∨ (lo ≤ a ∧ a < hi')) :
    pieces hi m base ≤ pieces hi l base + 1 := by
  rw [pieces_eq_card hl, pieces_eq_card hm]
  have sub : starts (Covered m) base hi ⊆ insert hi' (starts (Covered l) base hi) := by
    intro x
    simp only [mem_starts, Finset.mem_insert, same]
    rintro ⟨range, free, begins⟩
    have out : ¬ (lo ≤ x ∧ x < hi') := fun inside => free (.inr inside)
    rcases begins with rfl | old | inside
    · exact .inr ⟨range, fun c => free (.inl c), .inl rfl⟩
    · exact .inr ⟨range, fun c => free (.inl c), .inr old⟩
    · left
      by_contra ne
      exact out ⟨by omega, by omega⟩
  exact (Finset.card_le_card sub).trans (Finset.card_insert_le _ _)

/-- A change outside `[base, hi)` does not change the stretches inside. -/
theorem pieces_of_outside {l m : List (Extent τ)} (hl : Ordered l) (hm : Ordered m)
    {base hi : Nat} (same : ∀ a, base ≤ a → a < hi → (Covered m a ↔ Covered l a)) :
    pieces hi m base = pieces hi l base := by
  rw [pieces_eq_card hl, pieces_eq_card hm]
  congr 1
  ext x
  simp only [mem_starts]
  constructor
  · rintro ⟨range, free, begins⟩
    refine ⟨range, fun c => free ((same x range.1 range.2).mpr c), ?_⟩
    by_cases first : x = base
    · exact .inl first
    · exact begins.imp_right (same (x - 1) (by omega) (by omega)).mp
  · rintro ⟨range, free, begins⟩
    refine ⟨range, fun c => free ((same x range.1 range.2).mp c), ?_⟩
    by_cases first : x = base
    · exact .inl first
    · exact begins.imp_right (same (x - 1) (by omega) (by omega)).mpr

/-- An interval that is not covered at all is one piece. -/
theorem pieces_of_free {l : List (Extent τ)} (h : Ordered l) {base hi : Nat} (lt : base < hi)
    (free : ∀ a, base ≤ a → a < hi → ¬ Covered l a) : pieces hi l base = 1 := by
  rw [pieces_eq_card h, card_starts_uncovered free, if_pos lt]

theorem pieces_of_le {l : List (Extent τ)} (h : Ordered l) {base hi : Nat} (le : hi ≤ base) :
    pieces hi l base = 0 := by
  rw [pieces_eq_card h, Finset.card_eq_zero, Finset.eq_empty_iff_forall_notMem]
  intro x member
  have := (mem_starts.mp member).1
  omega

theorem pieces_le (hi : Nat) (l : List (Extent τ)) (base : Nat) : pieces hi l base ≤ l.length + 1 := by
  induction l generalizing base with
  | nil =>
      unfold pieces
      split <;> simp
  | cons e l ih =>
      have skip := ih base
      have next := ih (min e.stop hi)
      simp only [pieces, List.length_cons]
      split
      · split <;> omega
      · split
        · omega
        · split <;> omega

/-! ## An interval above the list -/

/-- Leaving out extents opens at most one stretch for each of them. -/
theorem pieces_of_sublist {l m : List (Extent τ)} (hl : Ordered l) (sub : m.Sublist l) (hi base : Nat) :
    m.length + pieces hi m base ≤ l.length + pieces hi l base := by
  induction sub generalizing base with
  | slnil => exact le_rfl
  | @cons m l e sub ih =>
      obtain ⟨pos, after, rest⟩ := Ordered.cons_iff.mp hl
      have same (a : Nat) : Covered l a ↔ Covered (e :: l) a ∧ ¬ (e.base ≤ a ∧ a < e.stop) := by
        rw [covered_cons]
        constructor
        · intro covered
          refine ⟨.inr covered, fun inside => ?_⟩
          exact not_covered_of_below (fun x hx => inside.2.trans_le (after x hx)) covered
        · rintro ⟨inside | covered, out⟩
          · exact absurd inside out
          · exact covered
      have opened : pieces hi l base ≤ pieces hi (e :: l) base + 1 := pieces_of_removed hl rest same
      have kept := ih rest base
      rw [List.length_cons]
      omega
  | @cons_cons m l e sub ih =>
      obtain ⟨pos, after, rest⟩ := Ordered.cons_iff.mp hl
      have short := sub.length_le
      have kept (base : Nat) := ih rest base
      simp only [pieces, List.length_cons]
      split
      · omega
      · split
        · have := kept base
          omega
        · have := kept (min e.stop hi)
          omega

theorem pieces_above {l : List (Extent τ)} {base hi : Nat} (above : ∀ e ∈ l, e.stop ≤ base)
    (lt : base < hi) : pieces hi l base = 1 := by
  induction l with
  | nil => simp [pieces, lt]
  | cons e l ih =>
      have first : e.stop ≤ base := above e (by simp)
      have low : ¬ hi ≤ e.base := by
        simp only [stop] at first
        omega
      rw [pieces, if_neg low, if_pos first, ih (fun x hx => above x (by simp [hx]))]

theorem fill_above {l : List (Extent τ)} {base hi : Nat} {tag : τ} (above : ∀ e ∈ l, e.stop ≤ base)
    (lt : base < hi) : fill hi tag l base = l ++ [⟨base, hi - base, tag⟩] := by
  induction l with
  | nil => simp [fill, gap, lt]
  | cons e l ih =>
      have first : e.stop ≤ base := above e (by simp)
      have low : ¬ hi ≤ e.base := by
        simp only [stop] at first
        omega
      rw [fill, if_neg low, if_pos first, ih (fun x hx => above x (by simp [hx]))]
      rfl

end Miracle.Extent
