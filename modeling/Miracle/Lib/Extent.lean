import Mathlib

/-! # Lists of tagged extents

A finite partial map on addresses can be kept as a list of extents, each with a
base, a size and a tag, sorted by base and disjoint.  `lookup` reads such a list as
the partial map.  The operations below restrict the map to an interval (`clip`),
extend it to the missing addresses of an interval (`fill`) and join neighbours with
equal tags (`coalesce`).
-/

namespace Miracle

/-- The addresses `[base, base + size)` with one tag. -/
structure Extent (τ : Type) where
  base : Nat
  size : Nat
  tag : τ
  deriving DecidableEq, Repr

namespace Extent

variable {τ : Type}

def stop (e : Extent τ) : Nat := e.base + e.size

def Contains (e : Extent τ) (a : Nat) : Prop := e.base ≤ a ∧ a < e.stop

instance (e : Extent τ) (a : Nat) : Decidable (e.Contains a) :=
  inferInstanceAs (Decidable (_ ∧ _))

/-- The partial map a list of extents stands for. -/
def lookup (l : List (Extent τ)) (a : Nat) : Option τ :=
  (l.find? (fun e => decide (e.Contains a))).map tag

def total (l : List (Extent τ)) : Nat := (l.map size).sum

/-- The extents are nonempty, sorted by base and pairwise disjoint. -/
structure Ordered (l : List (Extent τ)) : Prop where
  pos : ∀ e ∈ l, 0 < e.size
  apart : l.Pairwise (fun x y => x.stop ≤ y.base)

@[simp] theorem lookup_nil (a : Nat) : lookup ([] : List (Extent τ)) a = none := rfl

theorem lookup_cons (e : Extent τ) (l : List (Extent τ)) (a : Nat) :
    lookup (e :: l) a = if e.Contains a then some e.tag else lookup l a := by
  by_cases inside : e.Contains a <;> simp [lookup, inside]

theorem lookup_append (l m : List (Extent τ)) (a : Nat) :
    lookup (l ++ m) a = (lookup l a).or (lookup m a) := by
  induction l with
  | nil => rfl
  | cons e l ih =>
      simp only [List.cons_append, lookup_cons, ih]
      split <;> rfl

theorem lookup_eq_none_iff {l : List (Extent τ)} {a : Nat} :
    lookup l a = none ↔ ∀ e ∈ l, ¬ e.Contains a := by
  simp [lookup]

@[simp] theorem total_nil : total ([] : List (Extent τ)) = 0 := rfl

@[simp] theorem total_cons (e : Extent τ) (l : List (Extent τ)) :
    total (e :: l) = e.size + total l := by
  simp [total]

@[simp] theorem total_append (l m : List (Extent τ)) : total (l ++ m) = total l + total m := by
  simp [total]

namespace Ordered

theorem nil : Ordered ([] : List (Extent τ)) := ⟨by simp, .nil⟩

theorem cons_iff {e : Extent τ} {l : List (Extent τ)} :
    Ordered (e :: l) ↔ 0 < e.size ∧ (∀ x ∈ l, e.stop ≤ x.base) ∧ Ordered l := by
  constructor
  · rintro ⟨pos, apart⟩
    obtain ⟨after, apart⟩ := List.pairwise_cons.mp apart
    exact ⟨pos e (by simp), after, fun x hx => pos x (by simp [hx]), apart⟩
  · rintro ⟨hpos, after, pos, apart⟩
    exact ⟨by simpa using ⟨hpos, pos⟩, List.pairwise_cons.mpr ⟨after, apart⟩⟩

theorem append {l m : List (Extent τ)} (hl : Ordered l) (hm : Ordered m)
    (between : ∀ x ∈ l, ∀ y ∈ m, x.stop ≤ y.base) : Ordered (l ++ m) := by
  refine ⟨?_, List.pairwise_append.mpr ⟨hl.apart, hm.apart, between⟩⟩
  intro e member
  rcases List.mem_append.mp member with member | member
  · exact hl.pos e member
  · exact hm.pos e member

theorem sublist {l m : List (Extent τ)} (sub : l.Sublist m) (h : Ordered m) : Ordered l :=
  ⟨fun e member => h.pos e (sub.subset member), h.apart.sublist sub⟩

/-- Disjoint extents between two addresses hold no more bytes than the interval. -/
theorem total_le {l : List (Extent τ)} (h : Ordered l) {lo hi : Nat}
    (low : ∀ e ∈ l, lo ≤ e.base) (high : ∀ e ∈ l, e.stop ≤ hi) (le : lo ≤ hi) :
    total l + lo ≤ hi := by
  induction l generalizing lo with
  | nil => simpa using le
  | cons e l ih =>
      obtain ⟨_, after, rest⟩ := cons_iff.mp h
      have first := low e (by simp)
      have bound := ih rest after (fun x hx => high x (by simp [hx])) (high e (by simp))
      simp only [total_cons, stop] at *
      omega

end Ordered

theorem lookup_of_mem {l : List (Extent τ)} (ordered : Ordered l) {e : Extent τ} {a : Nat}
    (member : e ∈ l) (inside : e.Contains a) : lookup l a = some e.tag := by
  induction l with
  | nil => simp at member
  | cons x l ih =>
      obtain ⟨_, after, rest⟩ := Ordered.cons_iff.mp ordered
      rw [lookup_cons]
      rcases List.mem_cons.mp member with rfl | member
      · rw [if_pos inside]
      · have := after e member
        rw [if_neg (by simp only [Contains, stop] at *; omega), ih rest member]

theorem lookup_filter {l : List (Extent τ)} (ordered : Ordered l) (p : τ → Bool) (a : Nat) :
    lookup (l.filter (fun e => p e.tag)) a = (lookup l a).filter p := by
  induction l with
  | nil => rfl
  | cons e l ih =>
      obtain ⟨_, after, rest⟩ := Ordered.cons_iff.mp ordered
      by_cases inside : e.Contains a
      · -- no later extent holds the address
        have alone : lookup l a = none := by
          rw [lookup_eq_none_iff]
          intro x hx hit
          have := after x hx
          simp only [Contains] at inside hit
          omega
        by_cases keep : p e.tag
        · simp [keep, lookup_cons, inside, Option.filter]
        · simp [keep, lookup_cons, inside, ih rest, alone, Option.filter]
      · by_cases keep : p e.tag
        · simp [keep, lookup_cons, inside, ih rest]
        · simp [keep, lookup_cons, inside, ih rest]

/-! ## Restriction to an interval -/

/-- The part of one extent inside `[lo, hi)`. -/
def clip1 (lo hi : Nat) (e : Extent τ) : Option (Extent τ) :=
  if max e.base lo < min e.stop hi then
    some ⟨max e.base lo, min e.stop hi - max e.base lo, e.tag⟩
  else none

def clip (lo hi : Nat) (l : List (Extent τ)) : List (Extent τ) := l.filterMap (clip1 lo hi)

@[simp] theorem clip_nil (lo hi : Nat) : clip lo hi ([] : List (Extent τ)) = [] := rfl

theorem clip_cons (lo hi : Nat) (e : Extent τ) (l : List (Extent τ)) :
    clip lo hi (e :: l) = (clip1 lo hi e).toList ++ clip lo hi l := by
  cases h : clip1 lo hi e <;> simp [clip, h]

theorem clip1_eq_some {lo hi : Nat} {e c : Extent τ} (h : clip1 lo hi e = some c) :
    lo ≤ c.base ∧ c.stop ≤ hi ∧ e.base ≤ c.base ∧ c.stop ≤ e.stop ∧ 0 < c.size := by
  unfold clip1 at h
  split at h
  · cases h
    simp only [stop] at *
    omega
  · cases h

theorem mem_clip {lo hi : Nat} {l : List (Extent τ)} {c : Extent τ} (member : c ∈ clip lo hi l) :
    ∃ e ∈ l, clip1 lo hi e = some c := by
  simpa [clip] using member

theorem lookup_clip (lo hi : Nat) (l : List (Extent τ)) (a : Nat) :
    lookup (clip lo hi l) a = if lo ≤ a ∧ a < hi then lookup l a else none := by
  induction l with
  | nil => simp
  | cons e l ih =>
      have head : lookup (clip1 lo hi e).toList a =
          if (lo ≤ a ∧ a < hi) ∧ e.Contains a then some e.tag else none := by
        unfold clip1
        split
        · rw [Option.toList_some, lookup_cons, lookup_nil]
          congr 1
          simp only [Contains, stop, eq_iff_iff] at *
          omega
        · rw [Option.toList_none, lookup_nil, if_neg]
          simp only [Contains, stop] at *
          omega
      rw [clip_cons, lookup_append, ih, lookup_cons, head]
      by_cases range : lo ≤ a ∧ a < hi <;> by_cases inside : e.Contains a <;>
        simp [range, inside]

theorem Ordered.clip {l : List (Extent τ)} (h : Ordered l) (lo hi : Nat) :
    Ordered (Extent.clip lo hi l) := by
  induction l with
  | nil => exact Ordered.nil
  | cons e l ih =>
      obtain ⟨_, after, rest⟩ := cons_iff.mp h
      rw [clip_cons]
      cases part : clip1 lo hi e with
      | none => simpa using ih rest
      | some c =>
          obtain ⟨_, _, _, below, pos⟩ := clip1_eq_some part
          refine cons_iff.mpr ⟨pos, ?_, ih rest⟩
          intro x member
          obtain ⟨y, hy, cut⟩ := mem_clip member
          have := after y hy
          have := clip1_eq_some cut
          omega

theorem total_clip1 (lo hi : Nat) (e : Extent τ) :
    total (clip1 lo hi e).toList = min e.stop hi - max e.base lo := by
  unfold clip1
  split
  · simp only [Option.toList_some, total_cons, total_nil, Nat.add_zero]
  · simp only [Option.toList_none, total_nil]
    omega

/-- The three restrictions at `lo ≤ hi` cover every byte once. -/
theorem total_clip {l : List (Extent τ)} {lo hi top : Nat} (le : lo ≤ hi)
    (high : ∀ e ∈ l, e.stop ≤ top) :
    total (clip 0 lo l) + total (clip lo hi l) + total (clip hi top l) = total l := by
  induction l with
  | nil => rfl
  | cons e l ih =>
      have rest := ih (fun x hx => high x (by simp [hx]))
      have bound := high e (by simp)
      simp only [clip_cons, total_append, total_clip1, total_cons, stop] at *
      omega

/-- Cutting an interval out of an ordered list adds at most one extent. -/
theorem length_clip_outside {l : List (Extent τ)} (h : Ordered l) {lo hi : Nat} (le : lo ≤ hi)
    (top : Nat) :
    (clip 0 lo l).length + (clip hi top l).length ≤ l.length + 1 := by
  have one (a b : Nat) (e : Extent τ) : (clip1 a b e).toList.length ≤ 1 := by
    cases clip1 a b e <;> simp
  have upper (m : List (Extent τ)) : (clip hi top m).length ≤ m.length := List.length_filterMap_le _ _
  induction l with
  | nil => simp
  | cons e l ih =>
      obtain ⟨pos, after, rest⟩ := Ordered.cons_iff.mp h
      have := ih rest
      have := one 0 lo e
      have := one hi top e
      have := upper l
      simp only [clip_cons, List.length_append, List.length_cons]
      by_cases both : e.base < lo ∧ hi < e.stop
      · -- the cut lies inside `e`, so nothing after `e` starts below it
        have none : clip 0 lo l = [] := by
          rw [List.eq_nil_iff_forall_not_mem]
          intro c member
          obtain ⟨x, hx, part⟩ := mem_clip member
          have := after x hx
          have := clip1_eq_some part
          simp only [stop] at *
          omega
        simp only [none, List.length_nil]
        omega
      · have : (clip1 0 lo e).toList.length + (clip1 hi top e).toList.length ≤ 1 := by
          unfold clip1
          split
          · split
            · simp only [stop] at *
              omega
            · simp
          · split <;> simp
        omega

theorem clip1_of_within {e : Extent τ} {lo hi : Nat} (pos : 0 < e.size) (low : lo ≤ e.base)
    (high : e.stop ≤ hi) : clip1 lo hi e = some e := by
  have width : e.stop - e.base = e.size := Nat.add_sub_cancel_left ..
  have lt : e.base < e.stop := Nat.lt_add_of_pos_right pos
  rw [clip1, Nat.max_eq_left low, Nat.min_eq_left high, if_pos lt, width]

theorem clip1_of_outside {e : Extent τ} {lo hi : Nat} (out : e.stop ≤ lo ∨ hi ≤ e.base) :
    clip1 lo hi e = none := by
  rw [clip1, if_neg (by omega)]

theorem clip1_lower {e : Extent τ} {lo hi : Nat} (low : lo ≤ e.base) (lt : e.base < hi)
    (high : hi ≤ e.stop) : clip1 lo hi e = some ⟨e.base, hi - e.base, e.tag⟩ := by
  rw [clip1, Nat.max_eq_left low, Nat.min_eq_right high, if_pos lt]

theorem clip1_upper {e : Extent τ} {lo hi : Nat} (low : e.base ≤ lo) (lt : lo < e.stop)
    (high : e.stop ≤ hi) : clip1 lo hi e = some ⟨lo, e.stop - lo, e.tag⟩ := by
  rw [clip1, Nat.max_eq_right low, Nat.min_eq_left high, if_pos lt]

/-- What lies below the interval does not matter. -/
theorem clip1_cut {e : Extent τ} {lo hi cut : Nat} (low : e.base ≤ cut) (le : cut ≤ lo)
    (high : cut ≤ e.stop) : clip1 lo hi ⟨cut, e.stop - cut, e.tag⟩ = clip1 lo hi e := by
  have same : (⟨cut, e.stop - cut, e.tag⟩ : Extent τ).stop = e.stop := Nat.add_sub_of_le high
  rw [clip1, clip1, same, Nat.max_eq_right le, Nat.max_eq_right (low.trans le)]

theorem clip_of_within {l : List (Extent τ)} {lo hi : Nat} (pos : ∀ e ∈ l, 0 < e.size)
    (low : ∀ e ∈ l, lo ≤ e.base) (high : ∀ e ∈ l, e.stop ≤ hi) : clip lo hi l = l := by
  induction l with
  | nil => rfl
  | cons e l ih =>
      have same := clip1_of_within (pos e (by simp)) (low e (by simp)) (high e (by simp))
      rw [clip_cons, same, ih (fun x hx => pos x (by simp [hx])) (fun x hx => low x (by simp [hx]))
        (fun x hx => high x (by simp [hx]))]
      rfl

theorem clip_clip (lo hi lo' hi' : Nat) (l : List (Extent τ)) :
    clip lo hi (clip lo' hi' l) = clip (max lo lo') (min hi hi') l := by
  have one (e : Extent τ) :
      (clip1 lo' hi' e).bind (clip1 lo hi) = clip1 (max lo lo') (min hi hi') e := by
    unfold clip1
    by_cases inner : max e.base lo' < min e.stop hi'
    · have same : (⟨max e.base lo', min e.stop hi' - max e.base lo', e.tag⟩ : Extent τ).stop =
          min e.stop hi' := Nat.add_sub_of_le inner.le
      rw [if_pos inner, Option.bind_some, same]
      have low : max (max e.base lo') lo = max e.base (max lo lo') := by omega
      have high : min (min e.stop hi') hi = min e.stop (min hi hi') := by omega
      rw [low, high]
    · rw [if_neg inner, if_neg (by omega)]
      rfl
  simp only [clip, List.filterMap_filterMap, one]

theorem clip_of_outside {l : List (Extent τ)} {lo hi : Nat}
    (out : ∀ e ∈ l, e.stop ≤ lo ∨ hi ≤ e.base) : clip lo hi l = [] := by
  rw [List.eq_nil_iff_forall_not_mem]
  intro c member
  obtain ⟨x, hx, part⟩ := mem_clip member
  have := out x hx
  have := clip1_eq_some part
  simp only [stop] at *
  omega

end Extent

end Miracle
