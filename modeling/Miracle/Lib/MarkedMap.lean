import Miracle.Lib.BitScan

/-! # A map with marks

An ordered map from indices to entries in which every index has a mark, also one without an entry.  The mark of an index
that loses its entry is set again.
-/

namespace Miracle

structure MarkedMap (α : Type) where
  entry : Nat → Option α
  mark : Nat → Bool

namespace MarkedMap

open BitScan

variable {α : Type}

def empty : MarkedMap α := ⟨fun _ => none, fun _ => true⟩

/-- The first marked index of `[start, last]`, or the index after both. -/
def findMarked (map : MarkedMap α) (start last : Nat) : Nat := firstFrom map.mark true (last + 1 - start) start

def store (map : MarkedMap α) (i : Nat) (e : Option α) : MarkedMap α :=
  { entry := Function.update map.entry i e
    mark := if e.isNone then Function.update map.mark i true else map.mark }

def setMark (map : MarkedMap α) (i : Nat) : MarkedMap α := { map with mark := Function.update map.mark i true }

def clearMark (map : MarkedMap α) (i : Nat) : MarkedMap α := { map with mark := Function.update map.mark i false }

variable (map : MarkedMap α) (i : Nat)

theorem findMarked_spec (start last : Nat) :
    start ≤ map.findMarked start last ∧
      (map.findMarked start last ≤ last → map.mark (map.findMarked start last) = true) ∧
      ∀ j, start ≤ j → j < map.findMarked start last → map.mark j = false := by
  obtain ⟨lower, upper, found, before⟩ := firstFrom_spec map.mark true (last + 1 - start) start
  refine ⟨lower, ?_, ?_⟩
  · intro le
    apply found
    have inside : firstFrom map.mark true (last + 1 - start) start ≤ last := le
    omega
  · intro j low high
    simpa using before j low high

@[simp] theorem entry_store (e : Option α) : (map.store i e).entry i = e := Function.update_self ..

theorem entry_store_of_ne {j : Nat} (ne : j ≠ i) (e : Option α) : (map.store i e).entry j = map.entry j :=
  Function.update_of_ne ne ..

@[simp] theorem mark_store_some (e : α) : (map.store i (some e)).mark = map.mark := rfl

@[simp] theorem mark_store_none : (map.store i none).mark = Function.update map.mark i true := rfl

@[simp] theorem entry_setMark : (map.setMark i).entry = map.entry := rfl

@[simp] theorem entry_clearMark : (map.clearMark i).entry = map.entry := rfl

end MarkedMap

end Miracle
