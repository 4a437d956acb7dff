import Mathlib.Data.Nat.Basic

/-! # Counting loops

A loop over `0, ..., n - 1` on a state, and one that stops at the first number that passes a test.
A step without a result is a fault, which ends the loop without one.
-/

namespace Miracle.CountLoop

variable {σ : Type}

/-- `for (k = 0; k < n; k++)`. -/
def countUp (body : Nat → σ → Option σ) : Nat → σ → Option σ
  | 0, s => some s
  | n + 1, s => (countUp body n s).bind (body n)

/-- What every round keeps holds after the loop. -/
theorem countUp_rule {body : Nat → σ → Option σ} {n : Nat} {s : σ} (I : Nat → σ → Prop) (start : I 0 s)
    (step : ∀ k s, k < n → I k s → ∃ s', body k s = some s' ∧ I (k + 1) s') : ∃ s', countUp body n s = some s' ∧ I n s' := by
  induction n with
  | zero => exact ⟨s, rfl, start⟩
  | succ n ih =>
      obtain ⟨s', run, here⟩ := ih fun k s less => step k s (Nat.lt_succ_of_lt less)
      obtain ⟨s'', last, there⟩ := step n s' (Nat.lt_succ_self n) here
      exact ⟨s'', by rw [countUp, run, Option.bind_some, last], there⟩

/-- A loop with a result has gone through every round. -/
theorem countUp_round {body : Nat → σ → Option σ} {n k : Nat} {s r : σ} (run : countUp body n s = some r) (less : k < n) :
    ∃ t t', countUp body k s = some t ∧ body k t = some t' := by
  induction n generalizing r with
  | zero => exact absurd less (Nat.not_lt_zero k)
  | succ n ih =>
      obtain ⟨t, before, last⟩ := Option.bind_eq_some_iff.mp run
      rcases Nat.eq_or_lt_of_le (Nat.le_of_lt_succ less) with rfl | earlier
      · exact ⟨t, r, before, last⟩
      · exact ih before earlier

/-- What every round that has a result keeps is kept by the loop. -/
theorem countUp_kept {body : Nat → σ → Option σ} (I : σ → Prop) (step : ∀ k s s', body k s = some s' → I s → I s') {n : Nat} {s r : σ}
    (run : countUp body n s = some r) (start : I s) : I r := by
  induction n generalizing r with
  | zero =>
      cases run
      exact start
  | succ n ih =>
      obtain ⟨t, before, last⟩ := Option.bind_eq_some_iff.mp run
      exact step n t r last (ih before)

theorem countUp_one (body : Nat → σ → Option σ) (s : σ) : countUp body 1 s = body 0 s := rfl

/-- `for (k = 0; k < n; k++) if (test) return true`. -/
def search (test : Nat → Option Bool) : Nat → Option Bool
  | 0 => some false
  | n + 1 => (search test n).bind fun found => if found then some true else test n

theorem search_eq {test : Nat → Option Bool} {n : Nat} {p : Nat → Bool} (known : ∀ k < n, test k = some (p k)) :
    search test n = some (decide (∃ k < n, p k = true)) := by
  induction n with
  | zero => simp [search]
  | succ n ih =>
      rw [search, ih fun k less => known k (Nat.lt_succ_of_lt less), Option.bind_some, known n (Nat.lt_succ_self n)]
      by_cases found : ∃ k < n, p k = true
      · obtain ⟨k, less, hit⟩ := found
        have later : ∃ k < n + 1, p k = true := ⟨k, Nat.lt_succ_of_lt less, hit⟩
        rw [decide_eq_true ⟨k, less, hit⟩, decide_eq_true later]
        rfl
      · have here : (∃ k < n + 1, p k = true) ↔ p n = true := by
          constructor
          · rintro ⟨k, less, hit⟩
            rcases Nat.eq_or_lt_of_le (Nat.le_of_lt_succ less) with rfl | before
            · exact hit
            · exact absurd ⟨k, before, hit⟩ found
          · exact fun hit => ⟨n, Nat.lt_succ_self n, hit⟩
        have same : decide (∃ k < n + 1, p k = true) = p n := by rw [Bool.eq_iff_iff, decide_eq_true_iff, here]
        rw [decide_eq_false found, same]
        exact if_neg Bool.false_ne_true

theorem search_one (test : Nat → Option Bool) : search test 1 = test 0 := by
  rw [search, search, Option.bind_some]
  exact if_neg Bool.false_ne_true

end Miracle.CountLoop
