import Mathlib.Data.List.Basic
import Mathlib.Tactic

/-! # A buffer of bounded length

A piece of memory as the list of its cells.  A read or a write outside it fails.  What a loop writes
in order is one text put over the cells from a position on.
-/

namespace Miracle.Buffer

variable {α : Type} {m s : List α} {p q : Nat} {c : α}

/-- `m[p] = c`. -/
def write (m : List α) (p : Nat) (c : α) : Option (List α) :=
  if p < m.length then some (m.set p c) else none

theorem read_append {x y : List α} (at_ : p = x.length) : (x ++ c :: y)[p]? = some c := by
  rw [at_, List.getElem?_append_right (Nat.le_refl _), Nat.sub_self]
  rfl

theorem write_append {x y : List α} (d : α) (at_ : p = x.length) : write (x ++ c :: y) p d = some (x ++ d :: y) := by
  have inside : p < (x ++ c :: y).length := by
    rw [List.length_append, List.length_cons]
    omega
  rw [write, if_pos inside, at_, List.set_append_right _ _ (Nat.le_refl _), Nat.sub_self]
  rfl

/-! ## A text at a position -/

/-- The cells from `p` on are those of `s`. -/
def HasAt (m : List α) (p : Nat) (s : List α) : Prop := s <+: m.drop p

theorem HasAt.head (h : HasAt m p (c :: s)) : m[p]? = some c := by
  obtain ⟨rest, same⟩ := h
  have first : (m.drop p)[0]? = some c := by rw [← same]; rfl
  rwa [List.getElem?_drop, Nat.add_zero] at first

theorem HasAt.drop (h : HasAt m p s) (k : Nat) : HasAt m (p + k) (s.drop k) := by
  obtain ⟨rest, same⟩ := h
  by_cases inside : k ≤ s.length
  · refine ⟨rest, ?_⟩
    rw [← List.drop_drop, ← same, List.drop_append_of_le_length inside]
  · rw [List.drop_eq_nil_of_le (by omega)]
    exact List.nil_prefix

theorem HasAt.tail (h : HasAt m p (c :: s)) : HasAt m (p + 1) s := h.drop 1

/-! ## A text put over a buffer -/

/-- The buffer with `text` over its cells from `p` on. -/
def overwrite (m : List α) (p : Nat) (text : List α) : List α := m.take p ++ (text ++ m.drop (p + text.length))

@[simp] theorem overwrite_nil : overwrite m p [] = m := List.take_append_drop p m

theorem write_eq (c : α) (inside : p < m.length) : write m p c = some (overwrite m p [c]) := by
  rw [write, if_pos inside, List.set_eq_take_append_cons_drop, if_pos inside]
  rfl

theorem overwrite_front {text : List α} (inside : p + text.length ≤ m.length) : (m.take p ++ text).length = p + text.length := by
  rw [List.length_append, List.length_take_of_le (by omega)]

@[simp] theorem overwrite_length {text : List α} (inside : p + text.length ≤ m.length) : (overwrite m p text).length = m.length := by
  rw [overwrite, ← List.append_assoc, List.length_append, overwrite_front inside, List.length_drop]
  omega

theorem overwrite_drop {text : List α} (inside : p + text.length ≤ m.length) (k : Nat) :
    (overwrite m p text).drop (p + text.length + k) = m.drop (p + text.length + k) := by
  rw [overwrite, ← List.append_assoc, ← overwrite_front inside, List.drop_length_add_append, List.drop_drop]

/-- Two texts put one behind the other are one text. -/
theorem overwrite_append {a b : List α} (inside : p + a.length ≤ m.length) :
    overwrite (overwrite m p a) (p + a.length) b = overwrite m p (a ++ b) := by
  have front : (overwrite m p a).take (p + a.length) = m.take p ++ a := by
    rw [overwrite, ← List.append_assoc, List.take_left' (overwrite_front inside)]
  rw [overwrite, front, overwrite_drop inside, overwrite, List.length_append, Nat.add_assoc, List.append_assoc, List.append_assoc]

/-- A text put in front of another one or behind it leaves that one alone. -/
theorem HasAt.overwrite {text : List α} (h : HasAt m p s) (inside : q + text.length ≤ m.length)
    (apart : q + text.length ≤ p ∨ p + s.length ≤ q) : HasAt (overwrite m q text) p s := by
  cases apart with
  | inl before =>
      obtain ⟨k, rfl⟩ := Nat.exists_eq_add_of_le before
      rw [HasAt, overwrite_drop inside]
      exact h
  | inr behind =>
      have cut : s <+: (m.take q).drop p := by
        rw [List.drop_take]
        exact List.prefix_take_iff.mpr ⟨h, by omega⟩
      rw [HasAt, Buffer.overwrite, List.drop_append_of_le_length (by rw [List.length_take]; omega)]
      exact cut.trans (List.prefix_append _ _)

end Miracle.Buffer
