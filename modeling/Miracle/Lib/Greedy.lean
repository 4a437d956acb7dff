import Mathlib.Data.List.Nodup
import Mathlib.Data.Nat.Find

/-! # Greedy grouping

Elements are put into groups one after another, each into the first group in which it
clashes with no member.  The groups then have no clashes inside, their numbers have no gaps,
and there are as many groups as elements only if all elements clash.
-/

namespace Miracle.Greedy

variable {α : Type} (clash : α → α → Bool)

/-- `g` is the first group in which `a` has no clash; the placed elements carry their groups. -/
structure FirstFree (placed : List (α × Nat)) (a : α) (g : Nat) : Prop where
  free : ∀ t, (t, g) ∈ placed → clash a t = false
  below : ∀ h, h < g → ∃ t, (t, h) ∈ placed ∧ clash a t = true

/-- The results of a grouping, the last element first. -/
inductive Grouped : List (α × Nat) → Prop where
  | nil : Grouped []
  | place {placed : List (α × Nat)} {a : α} {g : Nat} :
      Grouped placed → FirstFree clash placed a g → Grouped ((a, g) :: placed)

/-- The number of groups. -/
def groups : List (α × Nat) → Nat
  | [] => 0
  | x :: placed => max (groups placed) (x.2 + 1)

theorem lt_groups {placed : List (α × Nat)} {t : α} {g : Nat} (member : (t, g) ∈ placed) : g < groups placed := by
  induction placed with
  | nil => cases member
  | cons x placed ih =>
      rw [groups]
      rcases List.mem_cons.mp member with here | there
      · cases here
        omega
      · have := ih there
        omega

variable {clash} {placed : List (α × Nat)} {a : α} {g : Nat}

/-- A group below the first free one has a member. -/
theorem FirstFree.le_groups (first : FirstFree clash placed a g) : g ≤ groups placed := by
  by_contra above
  obtain ⟨t, member, -⟩ := first.below (g - 1) (by omega)
  have := lt_groups member
  omega

theorem exists_firstFree (clash : α → α → Bool) (placed : List (α × Nat)) (a : α) :
    ∃ g, FirstFree clash placed a g := by
  classical
  have free : ∃ g, ∀ t, (t, g) ∈ placed → clash a t = false :=
    ⟨groups placed, fun t member => absurd (lt_groups member) (Nat.lt_irrefl _)⟩
  refine ⟨Nat.find free, Nat.find_spec free, fun h lt => ?_⟩
  by_contra none
  refine Nat.find_min free lt (fun t member => ?_)
  by_contra clashes
  exact none ⟨t, member, by simpa using clashes⟩

theorem FirstFree.groups_cons (first : FirstFree clash placed a g) :
    groups ((a, g) :: placed) = if g = groups placed then groups placed + 1 else groups placed := by
  have le := first.le_groups
  rw [groups]
  split <;> omega

namespace Grouped

theorem apart (h : Grouped clash placed) : placed.Pairwise (fun x y => x.2 = y.2 → clash x.1 y.1 = false) := by
  induction h with
  | nil => exact .nil
  | place _ first ih =>
      refine .cons (fun y member same => ?_) ih
      simp only at same
      exact first.free y.1 (by rw [same]; exact member)

/-- The group numbers have no gaps. -/
theorem exists_of_lt (h : Grouped clash placed) {k : Nat} (lt : k < groups placed) : ∃ s, (s, k) ∈ placed := by
  induction h with
  | nil => cases lt
  | @place placed _ _ _ first ih =>
      rw [first.groups_cons] at lt
      split at lt
      · rename_i new
        by_cases last : k = groups placed
        · exact ⟨_, by rw [last, ← new]; exact List.mem_cons_self⟩
        · obtain ⟨s, member⟩ := ih (by omega)
          exact ⟨s, List.mem_cons_of_mem _ member⟩
      · obtain ⟨s, member⟩ := ih lt
        exact ⟨s, List.mem_cons_of_mem _ member⟩

theorem groups_le (h : Grouped clash placed) : groups placed ≤ placed.length := by
  induction h with
  | nil => exact Nat.le_refl 0
  | place _ first ih =>
      rw [first.groups_cons, List.length_cons]
      split <;> omega

/-- As many groups as elements means that all elements clash. -/
theorem groups_eq_length_iff (h : Grouped clash placed) :
    groups placed = placed.length ↔ placed.Pairwise (fun x y => clash x.1 y.1 = true) := by
  induction h with
  | nil => exact iff_of_true rfl .nil
  | @place placed a g h first ih =>
      have le := h.groups_le
      rw [first.groups_cons, List.length_cons, List.pairwise_cons, ← ih]
      constructor
      · intro full
        have all : groups placed = placed.length := by
          split at full <;> omega
        have new : g = groups placed := by
          by_contra old
          rw [if_neg old] at full
          omega
        refine ⟨fun y member => ?_, all⟩
        -- the member of `y`'s group that clashes with `a` is `y` itself
        obtain ⟨t, found, clashes⟩ := first.below y.2 (new ▸ lt_groups member)
        have nodup : (placed.map Prod.snd).Nodup := by
          refine List.pairwise_map.mpr ((ih.mp all).and h.apart |>.imp ?_)
          rintro x y ⟨clash, quiet⟩ same
          rw [quiet same] at clash
          cases clash
        have same := List.inj_on_of_nodup_map nodup found member rfl
        rwa [← same]
      · rintro ⟨clashes, all⟩
        have new : g = groups placed := by
          by_contra old
          obtain ⟨s, member⟩ := h.exists_of_lt (Nat.lt_of_le_of_ne first.le_groups old)
          have none := first.free s member
          rw [clashes _ member] at none
          cases none
        rw [if_pos new, all]

end Grouped

end Miracle.Greedy
