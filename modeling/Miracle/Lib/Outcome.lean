import Mathlib.Logic.Basic

/-! # Outcomes of computations that can stop

A computation in `Except` stops where the code would.  `Outcome stop P` says that it
returns a result in `P` or stops in a way that `stop` allows.
-/

namespace Miracle

variable {ε α β : Type}

theorem bind_eq_ok {x : Except ε α} {f : α → Except ε β} {b : β} (h : (x >>= f) = .ok b) :
    ∃ a, x = .ok a ∧ f a = .ok b := by
  cases x with
  | error e => cases h
  | ok a => exact ⟨a, rfl, h⟩

@[simp] theorem ok_bind (a : α) (f : α → Except ε β) :
    ((Except.ok a : Except ε α) >>= f) = f a := rfl

@[simp] theorem error_bind (e : ε) (f : α → Except ε β) :
    ((Except.error e : Except ε α) >>= f) = .error e := rfl

@[simp] theorem pure_eq_ok (a : α) : (pure a : Except ε α) = .ok a := rfl

/-- The computation returns with a result in `P` or stops with an error in `stop`. -/
def Outcome (stop : ε → Prop) (P : α → Prop) : Except ε α → Prop
  | .ok a => P a
  | .error e => stop e

namespace Outcome

variable {stop : ε → Prop} {P : α → Prop} {x : Except ε α}

theorem bind {Q : β → Prop} {f : α → Except ε β} (h : Outcome stop P x)
    (next : ∀ a, P a → Outcome stop Q (f a)) : Outcome stop Q (x >>= f) := by
  cases x with
  | error e => exact h
  | ok a => exact next a h

theorem mono {Q : α → Prop} (h : Outcome stop P x) (imp : ∀ a, P a → Q a) : Outcome stop Q x := by
  cases x with
  | error e => exact h
  | ok a => exact imp a h

theorem map {Q : β → Prop} {f : α → β} (h : Outcome stop (fun a => Q (f a)) x) :
    Outcome stop Q (x.map f) := by
  cases x with
  | error e => exact h
  | ok a => exact h

/-- Where nothing may stop there is a result. -/
theorem exists_ok (h : Outcome (fun _ => False) P x) : ∃ a, x = .ok a ∧ P a := by
  cases x with
  | error e => exact h.elim
  | ok a => exact ⟨a, rfl, h⟩

end Outcome

end Miracle
