import Mathlib.Data.List.Basic
import Mathlib.Tactic

/-! # Descents in a binary search tree

A descent asks every node it meets for a direction.  When the directions agree with the order of
the nodes, the descent ends at the place in that order that the directions point to; the shape
of the tree does not matter.
-/

namespace Miracle.SearchTree

/-- A binary tree with its elements at the inner nodes. -/
inductive BinTree (α : Type) where
  | leaf
  | node (left : BinTree α) (value : α) (right : BinTree α)

namespace BinTree

variable {α : Type}

def inorder : BinTree α → List α
  | leaf => []
  | node l a r => l.inorder ++ a :: r.inorder

end BinTree

/-- Where a descent goes from a node. -/
inductive Dir where
  | left
  | stop
  | right
deriving DecidableEq, Repr

open BinTree

variable {α : Type} {dir : α → Dir}

/-- The nodes that send the descent to the right come first, those that send it to the left
    last. -/
def Guides (dir : α → Dir) (l : List α) : Prop :=
  l.Pairwise fun a b => (dir a = .left → dir b = .left) ∧ (dir b = .right → dir a = .right)

theorem Guides.left_after {pre post : List α} {a b : α} (guides : Guides dir (pre ++ a :: post))
    (h : dir a = .left) (mem : b ∈ post) : dir b = .left := by
  have tail := (List.pairwise_append.mp guides).2.1
  exact ((List.pairwise_cons.mp tail).1 b mem).1 h

theorem Guides.right_before {pre post : List α} {a b : α} (guides : Guides dir (pre ++ a :: post))
    (h : dir a = .right) (mem : b ∈ pre) : dir b = .right :=
  ((List.pairwise_append.mp guides).2.2 b mem a List.mem_cons_self).2 h

theorem Guides.parts {pre post : List α} {a : α} (guides : Guides dir (pre ++ a :: post)) :
    Guides dir pre ∧ Guides dir post := by
  obtain ⟨front, back, -⟩ := List.pairwise_append.mp guides
  exact ⟨front, (List.pairwise_cons.mp back).2⟩

/-! ## The node where a descent ends -/

/-- The last node that a descent visits. -/
def lastVisited (dir : α → Dir) : BinTree α → Option α
  | leaf => none
  | node l a r =>
    match dir a with
    | .left => (lastVisited dir l).or (some a)
    | .stop => some a
    | .right => (lastVisited dir r).or (some a)

/-- The descent ends at a node that stops it, or next to the gap that all directions point to. -/
theorem lastVisited_spec {t : BinTree α} (guides : Guides dir t.inorder) :
    (t = leaf ∧ lastVisited dir t = none) ∨
      ∃ pre v post, t.inorder = pre ++ v :: post ∧ lastVisited dir t = some v ∧
        (dir v = .stop ∨ (dir v = .left ∧ ∀ a ∈ pre, dir a = .right) ∨
          (dir v = .right ∧ ∀ a ∈ post, dir a = .left)) := by
  induction t with
  | leaf => exact .inl ⟨rfl, rfl⟩
  | node l a r ihl ihr =>
      obtain ⟨guidesL, guidesR⟩ := guides.parts
      refine .inr ?_
      simp only [lastVisited, BinTree.inorder]
      cases towards : dir a with
      | stop => exact ⟨_, a, _, rfl, rfl, .inl towards⟩
      | left =>
          rcases ihl guidesL with ⟨rfl, none_seen⟩ | ⟨pre, v, post, shape, seen, place⟩
          · refine ⟨[], a, r.inorder, rfl, by rw [none_seen]; rfl, .inr (.inl ⟨towards, nofun⟩)⟩
          · refine ⟨pre, v, post ++ a :: r.inorder, by rw [shape]; simp, by rw [seen]; rfl, ?_⟩
            rcases place with stop | before | ⟨toRight, after⟩
            · exact .inl stop
            · exact .inr (.inl before)
            · refine .inr (.inr ⟨toRight, ?_⟩)
              intro b mem
              rcases List.mem_append.mp mem with inLeft | rest
              · exact after b inLeft
              · rcases List.mem_cons.mp rest with rfl | inRight
                · exact towards
                · exact guides.left_after towards inRight
      | right =>
          rcases ihr guidesR with ⟨rfl, none_seen⟩ | ⟨pre, v, post, shape, seen, place⟩
          · refine ⟨l.inorder, a, [], rfl, by rw [none_seen]; rfl, .inr (.inr ⟨towards, nofun⟩)⟩
          · refine ⟨l.inorder ++ a :: pre, v, post, by rw [shape]; simp, by rw [seen]; rfl, ?_⟩
            rcases place with stop | ⟨toLeft, before⟩ | after
            · exact .inl stop
            · refine .inr (.inl ⟨toLeft, ?_⟩)
              intro b mem
              rcases List.mem_append.mp mem with inLeft | rest
              · exact guides.right_before towards inLeft
              · rcases List.mem_cons.mp rest with rfl | inRight
                · exact towards
                · exact before b inRight
            · exact .inr (.inr after)

/-! ## A new leaf at the end of a descent -/

/-- The tree with a new node at the empty place where a descent ends, if no node stops it. -/
def link (dir : α → Dir) (x : α) : BinTree α → Option (BinTree α)
  | leaf => some (node leaf x leaf)
  | node l a r =>
    match dir a with
    | .left => (link dir x l).map fun l => node l a r
    | .stop => none
    | .right => (link dir x r).map fun r => node l a r

/-- The new node comes after the nodes that send the descent to the right and before those
    that send it to the left. -/
theorem link_spec {t : BinTree α} {x : α} (guides : Guides dir t.inorder) (go : ∀ a ∈ t.inorder, dir a ≠ .stop) :
    ∃ t' pre post, link dir x t = some t' ∧ t.inorder = pre ++ post ∧ t'.inorder = pre ++ x :: post ∧
      (∀ a ∈ pre, dir a = .right) ∧ ∀ a ∈ post, dir a = .left := by
  induction t with
  | leaf => exact ⟨_, [], [], rfl, rfl, rfl, nofun, nofun⟩
  | node l a r ihl ihr =>
      obtain ⟨guidesL, guidesR⟩ := guides.parts
      simp only [BinTree.inorder, List.mem_append, List.mem_cons] at go
      simp only [link]
      cases towards : dir a with
      | stop => exact absurd towards (go a (.inr (.inl rfl)))
      | left =>
          obtain ⟨l', pre, post, linked, shape, shape', before, after⟩ := ihl guidesL fun b mem => go b (.inl mem)
          refine ⟨_, pre, post ++ a :: r.inorder, by rw [linked]; rfl, ?_, ?_, before, ?_⟩
          · simp [BinTree.inorder, shape]
          · simp [BinTree.inorder, shape']
          · intro b mem
            rcases List.mem_append.mp mem with inLeft | rest
            · exact after b inLeft
            · rcases List.mem_cons.mp rest with rfl | inRight
              · exact towards
              · exact guides.left_after towards inRight
      | right =>
          obtain ⟨r', pre, post, linked, shape, shape', before, after⟩ := ihr guidesR fun b mem => go b (.inr (.inr mem))
          refine ⟨_, l.inorder ++ a :: pre, post, by rw [linked]; rfl, ?_, ?_, ?_, after⟩
          · simp [BinTree.inorder, shape]
          · simp [BinTree.inorder, shape']
          · intro b mem
            rcases List.mem_append.mp mem with inLeft | rest
            · exact guides.right_before towards inLeft
            · rcases List.mem_cons.mp rest with rfl | inRight
              · exact towards
              · exact before b inRight

/-! ## The first node that is wanted -/

/-- The first node in order that `keep` wants; a node that `enough` accepts ends the search. -/
def firstKept (keep enough : α → Bool) : BinTree α → Option α → Option α
  | leaf, found => found
  | node l a r, found =>
    if keep a then
      if enough a then some a else firstKept keep enough l (some a)
    else firstKept keep enough r found

theorem firstKept_spec {keep enough : α → Bool} {t : BinTree α} (found : Option α)
    (mono : t.inorder.Pairwise fun a b => keep a = true → keep b = true) :
    (firstKept keep enough t found = found ∧ ∀ a ∈ t.inorder, keep a = false) ∨
      ∃ pre v post, t.inorder = pre ++ v :: post ∧ firstKept keep enough t found = some v ∧
        (enough v = true ∨ ∀ a ∈ pre, keep a = false) := by
  induction t generalizing found with
  | leaf => exact .inl ⟨rfl, nofun⟩
  | node l a r ihl ihr =>
      obtain ⟨monoL, monoAR, across⟩ := List.pairwise_append.mp mono
      obtain ⟨monoA, monoR⟩ := List.pairwise_cons.mp monoAR
      simp only [firstKept, BinTree.inorder]
      split
      · rename_i kept
        split
        · rename_i accepted
          exact .inr ⟨l.inorder, a, r.inorder, rfl, rfl, .inl accepted⟩
        · rcases ihl (some a) monoL with ⟨here, noneKept⟩ | ⟨pre, v, post, shape, seen, place⟩
          · exact .inr ⟨l.inorder, a, r.inorder, rfl, here, .inr noneKept⟩
          · exact .inr ⟨pre, v, post ++ a :: r.inorder, by rw [shape]; simp, seen, place⟩
      · rename_i dropped
        have dropped' : keep a = false := Bool.eq_false_of_not_eq_true dropped
        -- nothing before a dropped node is kept
        have before : ∀ b ∈ l.inorder, keep b = false := by
          intro b mem
          by_contra kept
          exact dropped (across b mem a List.mem_cons_self (Bool.eq_true_of_not_eq_false kept))
        rcases ihr found monoR with ⟨here, noneKept⟩ | ⟨pre, v, post, shape, seen, place⟩
        · refine .inl ⟨here, fun b mem => ?_⟩
          rcases List.mem_append.mp mem with inLeft | rest
          · exact before b inLeft
          · rcases List.mem_cons.mp rest with rfl | inRight
            · exact dropped'
            · exact noneKept b inRight
        · refine .inr ⟨l.inorder ++ a :: pre, v, post, by rw [shape]; simp, seen, ?_⟩
          rcases place with accepted | noneKept
          · exact .inl accepted
          · refine .inr fun b mem => ?_
            rcases List.mem_append.mp mem with inLeft | rest
            · exact before b inLeft
            · rcases List.mem_cons.mp rest with rfl | inRight
              · exact dropped'
              · exact noneKept b inRight

/-! ## Neighbours in order -/

section Neighbours

variable [DecidableEq α]

/-- The element before `a`. -/
def prevIn : List α → α → Option α
  | [], _ => none
  | x :: rest, a => if rest.head? = some a then some x else prevIn rest a

/-- The element after `a`. -/
def nextIn : List α → α → Option α
  | [], _ => none
  | x :: rest, a => if x = a then rest.head? else nextIn rest a

theorem prevIn_of_not_mem {l : List α} {a : α} (absent : a ∉ l) : prevIn l a = none := by
  induction l with
  | nil => rfl
  | cons x l ih =>
      simp only [List.mem_cons, not_or] at absent
      rw [prevIn, if_neg fun head : l.head? = some a => absent.2 (List.mem_of_mem_head? head)]
      exact ih absent.2

theorem prevIn_append {pre post : List α} {a : α} (fresh : a ∉ pre) (last : a ∉ post) :
    prevIn (pre ++ a :: post) a = pre.getLast? := by
  induction pre with
  | nil =>
      rw [List.nil_append, prevIn, if_neg fun head : post.head? = some a => last (List.mem_of_mem_head? head)]
      exact prevIn_of_not_mem last
  | cons x pre ih =>
      simp only [List.mem_cons, not_or] at fresh
      rw [List.cons_append, prevIn]
      cases pre with
      | nil => simp
      | cons y pre =>
          rw [if_neg (by simpa using fun h => fresh.2 (by simp [h])), ih fresh.2]
          simp

theorem nextIn_append {pre post : List α} {a : α} (fresh : a ∉ pre) :
    nextIn (pre ++ a :: post) a = post.head? := by
  induction pre with
  | nil => simp [nextIn]
  | cons x pre ih =>
      simp only [List.mem_cons, not_or] at fresh
      rw [List.cons_append, nextIn, if_neg (Ne.symm fresh.1), ih fresh.2]

/-- The list with `x` behind `a`. -/
def insertAfter (a x : α) : List α → List α
  | [] => []
  | y :: rest => if y = a then y :: x :: rest else y :: insertAfter a x rest

theorem insertAfter_last {pre post : List α} {a x : α} (fresh : a ∉ pre) :
    insertAfter a x (pre ++ a :: post) = pre ++ a :: x :: post := by
  induction pre with
  | nil => simp [insertAfter]
  | cons y pre ih =>
      simp only [List.mem_cons, not_or] at fresh
      rw [List.cons_append, insertAfter, if_neg (Ne.symm fresh.1), ih fresh.2, List.cons_append]

theorem insertAfter_subset {l : List α} {a x y : α} (mem : y ∈ l) : y ∈ insertAfter a x l := by
  induction l with
  | nil => exact absurd mem List.not_mem_nil
  | cons z rest ih =>
      rw [insertAfter]
      rcases List.mem_cons.mp mem with rfl | later
      · split <;> exact List.mem_cons_self
      · split
        · exact List.mem_cons_of_mem z (List.mem_cons_of_mem x later)
        · exact List.mem_cons_of_mem z (ih later)

/-- The list from `a` on. -/
def suffixFrom (a : α) (l : List α) : List α := l.dropWhile fun x => x ≠ a

theorem suffixFrom_append {pre post : List α} {a : α} (fresh : a ∉ pre) :
    suffixFrom a (pre ++ a :: post) = a :: post := by
  induction pre with
  | nil => simp [suffixFrom]
  | cons y pre ih =>
      simp only [List.mem_cons, not_or] at fresh
      rw [suffixFrom, List.cons_append, List.dropWhile_cons_of_pos (by simpa using Ne.symm fresh.1)]
      exact ih fresh.2

end Neighbours

end Miracle.SearchTree
