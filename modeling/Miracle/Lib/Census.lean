import Mathlib

/-! # Counting what contexts do

Each of finitely many contexts is in some phase.  A census adds up a weight of the phases.
When one context changes its phase, the census changes by the difference of the weights.
-/

namespace Miracle

variable {τ π : Type}

/-- One for the phases in `p`, zero for the others. -/
def indicator (p : π → Bool) (x : π) : Nat := if p x then 1 else 0

theorem indicator_of {p : π → Bool} {x : π} (h : p x = true) : indicator p x = 1 := by
  simp [indicator, h]

theorem indicator_of_not {p : π → Bool} {x : π} (h : p x = false) : indicator p x = 0 := by
  simp [indicator, h]

variable [Fintype τ]

/-- The sum of the weights of all phases. -/
def census (weight : π → Nat) (phase : τ → π) : Nat := ∑ c, weight (phase c)

theorem census_add (f g : π → Nat) (phase : τ → π) :
    census (fun x => f x + g x) phase = census f phase + census g phase :=
  Finset.sum_add_distrib

theorem census_mul (k : Nat) (f : π → Nat) (phase : τ → π) :
    census (fun x => k * f x) phase = k * census f phase :=
  (Finset.mul_sum ..).symm

theorem le_census (f : π → Nat) (phase : τ → π) (c : τ) : f (phase c) ≤ census f phase :=
  Finset.single_le_sum (f := fun d => f (phase d)) (fun _ _ => Nat.zero_le _) (Finset.mem_univ c)

theorem census_eq_zero_iff {f : π → Nat} {phase : τ → π} :
    census f phase = 0 ↔ ∀ c, f (phase c) = 0 := by
  simp [census]

theorem census_indicator_eq_card (p : π → Bool) (phase : τ → π) :
    census (indicator p) phase = (Finset.univ.filter (fun c => p (phase c) = true)).card := by
  simp [census, indicator]

theorem census_indicator_pos_iff {p : π → Bool} {phase : τ → π} :
    0 < census (indicator p) phase ↔ ∃ c, p (phase c) = true := by
  rw [census_indicator_eq_card, Finset.card_pos]
  constructor
  · rintro ⟨c, member⟩
    exact ⟨c, (Finset.mem_filter.mp member).2⟩
  · rintro ⟨c, holds⟩
    exact ⟨c, Finset.mem_filter.mpr ⟨Finset.mem_univ c, holds⟩⟩

/-- Of a set of phases with at most one context in it, two contexts are the same. -/
theorem eq_of_census_le_one {p : π → Bool} {phase : τ → π} (one : census (indicator p) phase ≤ 1)
    {c d : τ} (first : p (phase c) = true) (second : p (phase d) = true) : c = d := by
  rw [census_indicator_eq_card] at one
  exact Finset.card_le_one.mp one c (by simp [first]) d (by simp [second])

variable [DecidableEq τ]

/-- The census after the context `c` has moved to the phase `x`. -/
theorem census_update (f : π → Nat) (phase : τ → π) (c : τ) (x : π) :
    census f (Function.update phase c x) + f (phase c) = census f phase + f x := by
  have rest : ∑ d ∈ Finset.univ.erase c, f (Function.update phase c x d) =
      ∑ d ∈ Finset.univ.erase c, f (phase d) := by
    refine Finset.sum_congr rfl (fun d member => ?_)
    rw [Function.update_of_ne (Finset.ne_of_mem_erase member)]
  have before := Finset.add_sum_erase Finset.univ (fun d => f (phase d)) (Finset.mem_univ c)
  have after := Finset.add_sum_erase Finset.univ (fun d => f (Function.update phase c x d))
    (Finset.mem_univ c)
  simp only [Function.update_self] at after
  simp only [census]
  omega

end Miracle
