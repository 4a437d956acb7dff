import Miracle.Lib.ExtentFill

/-! # Joining neighbours

`coalesce` joins an extent with its successor when it ends where the successor
begins and both have the same tag.  The map of the list does not change.
-/

namespace Miracle.Extent

variable {τ : Type}

def join (x y : Extent τ) : Extent τ := ⟨x.base, x.size + y.size, x.tag⟩

theorem contains_join {x y : Extent τ} (meet : x.stop = y.base) (a : Nat) :
    (join x y).Contains a ↔ x.Contains a ∨ y.Contains a := by
  simp only [join, Contains, stop] at *
  omega

variable [DecidableEq τ]

/-- Join from the extent `x` on. -/
def coalesceFrom : Extent τ → List (Extent τ) → List (Extent τ)
  | x, [] => [x]
  | x, y :: l =>
      if x.stop = y.base ∧ x.tag = y.tag then coalesceFrom (join x y) l
      else x :: coalesceFrom y l

def coalesce : List (Extent τ) → List (Extent τ)
  | [] => []
  | x :: l => coalesceFrom x l

theorem lookup_coalesceFrom (x : Extent τ) (l : List (Extent τ)) (a : Nat) :
    lookup (coalesceFrom x l) a = lookup (x :: l) a := by
  induction l generalizing x with
  | nil => rfl
  | cons y l ih =>
      simp only [coalesceFrom]
      split
      · obtain ⟨meet, same⟩ : x.stop = y.base ∧ x.tag = y.tag := ‹_›
        rw [ih]
        simp only [lookup_cons, contains_join meet, ← same]
        by_cases h1 : x.Contains a <;> by_cases h2 : y.Contains a <;> simp [h1, h2, join]
      · rw [lookup_cons, lookup_cons (e := x), ih]

@[simp] theorem lookup_coalesce (l : List (Extent τ)) (a : Nat) :
    lookup (coalesce l) a = lookup l a := by
  cases l with
  | nil => rfl
  | cons x l => exact lookup_coalesceFrom x l a

theorem total_coalesceFrom (x : Extent τ) (l : List (Extent τ)) :
    total (coalesceFrom x l) = total (x :: l) := by
  induction l generalizing x with
  | nil => rfl
  | cons y l ih =>
      simp only [coalesceFrom]
      split
      · rw [ih]
        simp only [total_cons, join]
        omega
      · rw [total_cons, ih, total_cons, total_cons, total_cons]

@[simp] theorem total_coalesce (l : List (Extent τ)) : total (coalesce l) = total l := by
  cases l with
  | nil => rfl
  | cons x l => exact total_coalesceFrom x l

theorem length_coalesceFrom (x : Extent τ) (l : List (Extent τ)) :
    0 < (coalesceFrom x l).length ∧ (coalesceFrom x l).length ≤ l.length + 1 := by
  induction l generalizing x with
  | nil => exact ⟨by simp [coalesceFrom], by simp [coalesceFrom]⟩
  | cons y l ih =>
      simp only [coalesceFrom]
      split
      · have := ih (join x y)
        simp only [List.length_cons]
        omega
      · have := ih y
        simp only [List.length_cons]
        omega

theorem length_coalesce_le (l : List (Extent τ)) : (coalesce l).length ≤ l.length := by
  cases l with
  | nil => exact le_rfl
  | cons x l => exact (length_coalesceFrom x l).2

theorem coalesce_ne_nil {l : List (Extent τ)} (h : l ≠ []) : coalesce l ≠ [] := by
  cases l with
  | nil => exact absurd rfl h
  | cons x l => exact List.ne_nil_of_length_pos (length_coalesceFrom x l).1

/-- Members of the joined list start at `x` or later and end where some extent ends. -/
theorem mem_coalesceFrom {x e : Extent τ} {l : List (Extent τ)} (ordered : Ordered (x :: l))
    (member : e ∈ coalesceFrom x l) :
    x.base ≤ e.base ∧ (∃ y ∈ x :: l, e.base = y.base) ∧ ∃ y ∈ x :: l, e.stop = y.stop := by
  induction l generalizing x with
  | nil =>
      obtain rfl := List.mem_singleton.mp member
      exact ⟨le_rfl, ⟨e, by simp, rfl⟩, e, by simp, rfl⟩
  | cons y l ih =>
      obtain ⟨pos, after, rest⟩ := Ordered.cons_iff.mp ordered
      obtain ⟨pos', after', rest'⟩ := Ordered.cons_iff.mp rest
      simp only [coalesceFrom] at member
      split at member
      · obtain ⟨meet, _⟩ : x.stop = y.base ∧ x.tag = y.tag := ‹_›
        have joined : (join x y).stop = y.stop := by simp only [join, stop] at *; omega
        have ordered' : Ordered (join x y :: l) :=
          Ordered.cons_iff.mpr ⟨by simp only [join]; omega, by rwa [joined], rest'⟩
        obtain ⟨h1, ⟨z, hz, eqb⟩, w, hw, eqs⟩ := ih ordered' member
        refine ⟨h1, ?_, ?_⟩
        · rcases List.mem_cons.mp hz with rfl | hz
          · exact ⟨x, by simp, eqb⟩
          · exact ⟨z, by simp [hz], eqb⟩
        · rcases List.mem_cons.mp hw with rfl | hw
          · exact ⟨y, by simp, eqs.trans joined⟩
          · exact ⟨w, by simp [hw], eqs⟩
      · rcases List.mem_cons.mp member with rfl | member
        · exact ⟨le_rfl, ⟨e, by simp, rfl⟩, e, by simp, rfl⟩
        · obtain ⟨h1, ⟨z, hz, eqb⟩, w, hw, eqs⟩ := ih rest member
          have := after y (by simp)
          exact ⟨by simp only [stop] at *; omega, ⟨z, by simp [hz], eqb⟩, w, by simp [hw], eqs⟩

theorem Ordered.coalesceFrom {x : Extent τ} {l : List (Extent τ)} (h : Ordered (x :: l)) :
    Ordered (Extent.coalesceFrom x l) := by
  induction l generalizing x with
  | nil => exact h
  | cons y l ih =>
      obtain ⟨pos, after, rest⟩ := cons_iff.mp h
      obtain ⟨pos', after', rest'⟩ := cons_iff.mp rest
      simp only [Extent.coalesceFrom]
      split
      · obtain ⟨meet, _⟩ : x.stop = y.base ∧ x.tag = y.tag := ‹_›
        refine ih (cons_iff.mpr ⟨by simp only [join]; omega, ?_, rest'⟩)
        intro z hz
        have := after' z hz
        simp only [join, stop] at *
        omega
      · refine cons_iff.mpr ⟨pos, ?_, ih rest⟩
        intro z hz
        have := (mem_coalesceFrom rest hz).1
        have := after y (by simp)
        omega

theorem Ordered.coalesce {l : List (Extent τ)} (h : Ordered l) : Ordered (Extent.coalesce l) := by
  cases l with
  | nil => exact h
  | cons x l => exact h.coalesceFrom

theorem mem_coalesce_stop {e : Extent τ} {l : List (Extent τ)} (ordered : Ordered l)
    (member : e ∈ coalesce l) : ∃ y ∈ l, e.stop = y.stop := by
  cases l with
  | nil => simp [coalesce] at member
  | cons x l => exact (mem_coalesceFrom ordered member).2.2

theorem coalesceFrom_of_gaps {x : Extent τ} {l : List (Extent τ)}
    (gaps : (x :: l).Pairwise (fun x y => x.stop < y.base)) : coalesceFrom x l = x :: l := by
  induction l generalizing x with
  | nil => rfl
  | cons y l ih =>
      obtain ⟨first, rest⟩ := List.pairwise_cons.mp gaps
      have lt : x.stop < y.base := first y (by simp)
      rw [coalesceFrom, if_neg (fun touch => lt.ne touch.1), ih rest]

theorem coalesce_of_gaps {l : List (Extent τ)} (gaps : l.Pairwise (fun x y => x.stop < y.base)) :
    coalesce l = l := by
  cases l with
  | nil => rfl
  | cons x l => exact coalesceFrom_of_gaps gaps

/-! ## No two neighbours to join -/

/-- No extent is continued by another one with its tag. -/
def Tight (l : List (Extent τ)) : Prop := ∀ e ∈ l, lookup l e.stop ≠ some e.tag

omit [DecidableEq τ] in
theorem not_contains_stop (e : Extent τ) : ¬ e.Contains e.stop := by
  simp [Contains]

theorem base_le_of_mem_coalesceFrom {x e : Extent τ} {l : List (Extent τ)}
    (apart : (x :: l).Pairwise (fun x y => x.stop ≤ y.base)) (member : e ∈ coalesceFrom x l) :
    x.base ≤ e.base := by
  induction l generalizing x with
  | nil =>
      obtain rfl := List.mem_singleton.mp member
      exact le_rfl
  | cons y l ih =>
      obtain ⟨after, rest⟩ := List.pairwise_cons.mp apart
      obtain ⟨after', rest'⟩ := List.pairwise_cons.mp rest
      have first := after y (by simp)
      simp only [coalesceFrom] at member
      split at member
      · obtain ⟨meet, -⟩ : x.stop = y.base ∧ x.tag = y.tag := ‹_›
        refine @ih (join x y) (List.pairwise_cons.mpr ⟨fun z hz => ?_, rest'⟩) member
        have := after' z hz
        simp only [join, stop] at *
        omega
      · rcases List.mem_cons.mp member with rfl | member
        · exact le_rfl
        · have := ih rest member
          simp only [stop] at first
          omega

/-- What follows the head of a sorted list is not its continuation, or has been joined to it. -/
theorem tight_coalesceFrom {x : Extent τ} {l : List (Extent τ)}
    (apart : (x :: l).Pairwise (fun x y => x.stop ≤ y.base)) (pos : ∀ e ∈ l, 0 < e.size) :
    ∀ e ∈ coalesceFrom x l, lookup (x :: l) e.stop ≠ some e.tag := by
  induction l generalizing x with
  | nil =>
      intro e member
      obtain rfl := List.mem_singleton.mp member
      rw [lookup_cons, if_neg e.not_contains_stop]
      simp
  | cons y l ih =>
      obtain ⟨after, rest⟩ := List.pairwise_cons.mp apart
      obtain ⟨after', rest'⟩ := List.pairwise_cons.mp rest
      have first := after y (by simp)
      have size := pos y (by simp)
      have pos' : ∀ e ∈ l, 0 < e.size := fun e member => pos e (by simp [member])
      intro e member
      simp only [coalesceFrom] at member
      split at member
      · obtain ⟨meet, same⟩ : x.stop = y.base ∧ x.tag = y.tag := ‹_›
        have joined : (join x y :: l).Pairwise (fun x y => x.stop ≤ y.base) := by
          refine List.pairwise_cons.mpr ⟨fun z hz => ?_, rest'⟩
          have := after' z hz
          simp only [join, stop] at *
          omega
        have keep := ih joined pos' e member
        rwa [← lookup_coalesceFrom, show coalesceFrom (join x y) l = coalesceFrom x (y :: l) by
          rw [coalesceFrom, if_pos ⟨meet, same⟩], lookup_coalesceFrom] at keep
      · rename_i separate
        rcases List.mem_cons.mp member with rfl | member
        · rw [lookup_cons, if_neg e.not_contains_stop]
          by_cases meet : e.stop = y.base
          · have inside : y.Contains e.stop := by simp only [Contains, stop] at *; omega
            rw [lookup_cons, if_pos inside]
            intro same
            exact separate ⟨meet, (Option.some.inj same).symm⟩
          · have none : lookup (y :: l) e.stop = none := by
              rw [lookup_eq_none_iff]
              intro z hz inside
              rcases List.mem_cons.mp hz with rfl | hz
              · exact absurd inside.1 (by omega)
              · have := after' z hz
                have := inside.1
                simp only [stop] at *
                omega
            simp [none]
        · have low := base_le_of_mem_coalesceFrom rest member
          have out : ¬ x.Contains e.stop := by simp only [Contains, stop] at *; omega
          rw [lookup_cons, if_neg out]
          exact ih rest pos' e member

theorem tight_coalesce {l : List (Extent τ)} (ordered : Ordered l) : Tight (coalesce l) := by
  intro e member
  rw [lookup_coalesce]
  cases l with
  | nil => cases member
  | cons x l =>
      exact tight_coalesceFrom ordered.apart (fun e member => ordered.pos e (by simp [member])) e member

section Unique

omit [DecidableEq τ]

variable {x y : Extent τ} {l m : List (Extent τ)}

theorem lookup_eq_some {a : Nat} {tag : τ} (found : lookup l a = some tag) :
    ∃ e ∈ l, e.Contains a ∧ e.tag = tag := by
  obtain ⟨e, first, rfl⟩ := Option.map_eq_some_iff.mp found
  have inside := List.find?_some first
  exact ⟨e, List.mem_of_find?_eq_some first, by simpa using inside, rfl⟩

/-- The head begins where the map does. -/
theorem head_base_le (hl : Ordered (x :: l)) (hm : Ordered (y :: m))
    (same : ∀ a, lookup (x :: l) a = lookup (y :: m) a) : y.base ≤ x.base := by
  have pos := hl.pos x (by simp)
  have here : lookup (y :: m) x.base = some x.tag := by
    rw [← same, lookup_cons, if_pos ⟨le_rfl, Nat.lt_add_of_pos_right pos⟩]
  obtain ⟨e, member, inside, -⟩ := lookup_eq_some here
  rcases List.mem_cons.mp member with rfl | later
  · exact inside.1
  · have after := (Ordered.cons_iff.mp hm).2.1 e later
    have low := inside.1
    simp only [stop] at after
    omega

/-- A head with the tag of a tight list's head does not end after it. -/
theorem head_stop_le (pos : 0 < x.size) (tight : Tight (x :: l)) (base : x.base = y.base) (tag : x.tag = y.tag)
    (same : ∀ a, lookup (x :: l) a = lookup (y :: m) a) : y.stop ≤ x.stop := by
  by_contra longer
  refine tight x (by simp) ?_
  rw [same, lookup_cons, if_pos ⟨by simp only [stop]; omega, Nat.not_le.mp longer⟩, tag]

theorem Tight.tail (ordered : Ordered (x :: l)) (tight : Tight (x :: l)) : Tight l := by
  intro e member continued
  have after := (Ordered.cons_iff.mp ordered).2.1 e member
  refine tight e (by simp [member]) ?_
  rw [lookup_cons, if_neg, continued]
  rintro ⟨-, high⟩
  simp only [stop] at *
  omega

theorem lookup_tail (ordered : Ordered (x :: l)) (a : Nat) :
    lookup l a = if x.Contains a then none else lookup (x :: l) a := by
  split
  · rename_i inside
    rw [lookup_eq_none_iff]
    intro e member inside'
    have after := (Ordered.cons_iff.mp ordered).2.1 e member
    have high := inside.2
    have low := inside'.1
    omega
  · rename_i outside
    rw [lookup_cons, if_neg outside]

/-- The map determines the list where no two neighbours can be joined. -/
theorem Tight.unique (hl : Ordered l) (hm : Ordered m) (tl : Tight l) (tm : Tight m)
    (same : ∀ a, lookup l a = lookup m a) : l = m := by
  induction l generalizing m with
  | nil =>
      cases m with
      | nil => rfl
      | cons y m =>
          have here := same y.base
          rw [lookup_cons, if_pos ⟨le_rfl, Nat.lt_add_of_pos_right (hm.pos y (by simp))⟩] at here
          exact absurd here.symm (Option.some_ne_none _)
  | cons x l ih =>
      have posX := hl.pos x (by simp)
      cases m with
      | nil =>
          have here := same x.base
          rw [lookup_cons, if_pos ⟨le_rfl, Nat.lt_add_of_pos_right posX⟩] at here
          exact absurd here (Option.some_ne_none _)
      | cons y m =>
          have posY := hm.pos y (by simp)
          have base : x.base = y.base :=
            le_antisymm (head_base_le hm hl fun a => (same a).symm) (head_base_le hl hm same)
          have tag : x.tag = y.tag := by
            have here := same x.base
            rw [lookup_cons, if_pos ⟨le_rfl, Nat.lt_add_of_pos_right posX⟩, lookup_cons,
              if_pos ⟨base.ge, by simp only [stop]; omega⟩] at here
            exact Option.some.inj here
          have stop_eq : x.stop = y.stop :=
            le_antisymm (head_stop_le posY tm base.symm tag.symm fun a => (same a).symm)
              (head_stop_le posX tl base tag same)
          have head : x = y := by
            cases x
            cases y
            simp only [stop] at *
            simp only [Extent.mk.injEq]
            exact ⟨base, by omega, tag⟩
          subst head
          have tails : l = m := ih (Ordered.cons_iff.mp hl).2.2 (Ordered.cons_iff.mp hm).2.2 (tl.tail hl) (tm.tail hm)
            fun a => by rw [lookup_tail hl, lookup_tail hm, same]
          rw [tails]

end Unique

end Miracle.Extent
