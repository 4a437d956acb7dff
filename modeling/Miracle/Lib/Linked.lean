import Mathlib.Logic.Function.Basic
import Mathlib.Data.List.Nodup
import Mathlib.Tactic
import Mathlib.Data.List.Perm.Basic

/-! # Lists threaded through memory

A pointer and a next-pointer in each node describe a list when following them comes to an
end.  The list is unique, and it does not change when other nodes are written.
-/

namespace Miracle

variable {α : Type}

/-- Following `next` from `head` visits the nodes of the list and ends. -/
inductive Linked (next : α → Option α) : Option α → List α → Prop where
  | nil : Linked next none []
  | cons {a : α} {l : List α} : Linked next (next a) l → Linked next (some a) (a :: l)

namespace Linked

variable {next : α → Option α} {head : Option α} {l m : List α}

theorem none_iff : Linked next none l ↔ l = [] := by
  constructor
  · intro h
    cases h
    rfl
  · rintro rfl
    exact .nil

theorem some_iff {a : α} : Linked next (some a) l ↔ ∃ m, l = a :: m ∧ Linked next (next a) m := by
  constructor
  · intro h
    cases h with
    | cons rest => exact ⟨_, rfl, rest⟩
  · rintro ⟨m, rfl, rest⟩
    exact .cons rest

theorem unique (h : Linked next head l) (h' : Linked next head m) : l = m := by
  induction h generalizing m with
  | nil => exact (none_iff.mp h').symm
  | cons _ ih =>
      obtain ⟨rest, rfl, tail⟩ := some_iff.mp h'
      rw [ih tail]

theorem head_eq (h : Linked next head l) : head = l.head? := by
  cases h <;> rfl

theorem eq_nil_iff (h : Linked next head l) : l = [] ↔ head = none := by
  cases h <;> simp

/-- Only the nodes of the list matter. -/
theorem congr {next' : α → Option α} (h : Linked next head l) (same : ∀ a ∈ l, next' a = next a) :
    Linked next' head l := by
  induction h with
  | nil => exact .nil
  | @cons a l rest ih =>
      refine .cons ?_
      rw [same a (by simp)]
      exact ih (fun b member => same b (by simp [member]))

variable [DecidableEq α]

theorem update {a : α} (h : Linked next head l) (out : a ∉ l) (v : Option α) :
    Linked (Function.update next a v) head l := by
  refine h.congr (fun b member => ?_)
  rw [Function.update_of_ne]
  rintro rfl
  exact out member

/-- A node is put in front of the list. -/
theorem push {a : α} (h : Linked next head l) (out : a ∉ l) :
    Linked (Function.update next a head) (some a) (a :: l) := by
  refine .cons ?_
  rw [Function.update_self]
  exact h.update out head

end Linked

end Miracle

/-! ## Stacks

A stack on which batches are put, and from which the newest element or all of them are taken.
A stack is the list of its elements, the newest first.
-/

namespace Miracle.Stack

variable {α : Type}

/-- An operation with what it returned. -/
inductive Op (α : Type) where
  | push (batch : List α) (wasEmpty : Bool)
  | pop (top : Option α)
  | popAll (all : List α)

inductive Step : List α → Op α → List α → Prop where
  | push (l batch : List α) : Step l (.push batch l.isEmpty) (batch ++ l)
  | pop (a : α) (l : List α) : Step (a :: l) (.pop (some a)) l
  | popEmpty : Step [] (.pop none) []
  | popAll (l : List α) : Step l (.popAll l) []

/-- The stacks that the operations reach from the empty one. -/
inductive Run : List (Op α) → List α → Prop where
  | nil : Run [] []
  | snoc {ops : List (Op α)} {op : Op α} {l l' : List α} (run : Run ops l) (step : Step l op l') : Run (ops ++ [op]) l'

def Op.pushed : Op α → List α
  | .push batch _ => batch
  | .pop _ => []
  | .popAll _ => []

def Op.popped : Op α → List α
  | .push _ _ => []
  | .pop top => top.toList
  | .popAll all => all

theorem Step.perm {l l' : List α} {op : Op α} (step : Step l op l') : (op.pushed ++ l).Perm (op.popped ++ l') := by
  cases step with
  | push batch => exact List.Perm.refl _
  | pop a l => exact List.Perm.refl _
  | popEmpty => exact List.Perm.refl _
  | popAll l => simp [Op.pushed, Op.popped]

/-- What was put on the stack was taken from it or is still there. -/
theorem Run.perm {ops : List (Op α)} {l : List α} (run : Run ops l) :
    (ops.flatMap Op.pushed).Perm (ops.flatMap Op.popped ++ l) := by
  induction run with
  | nil => exact List.Perm.refl _
  | @snoc ops op l l' _ step ih =>
      simp only [List.flatMap_append, List.flatMap_singleton]
      calc ops.flatMap Op.pushed ++ op.pushed
          |>.Perm (ops.flatMap Op.popped ++ l ++ op.pushed) := ih.append_right _
        _ |>.Perm (ops.flatMap Op.popped ++ (op.pushed ++ l)) := by
            rw [List.append_assoc]
            exact List.perm_append_comm.append_left _
        _ |>.Perm (ops.flatMap Op.popped ++ (op.popped ++ l')) := step.perm.append_left _
        _ = ops.flatMap Op.popped ++ op.popped ++ l' := (List.append_assoc _ _ _).symm

end Miracle.Stack
