import Mathlib.Tactic
import Mathlib.Data.Nat.Bitwise

/-! # Aligned blocks of powers of two

The block of order `k` at `p` has `2 ^ k` elements.  An aligned block and its buddy are
the two halves of an aligned block of the next order.
-/

namespace Miracle.PowBlock

/-- Membership in the block of order `k` at `p`. -/
def InBlock (p k a : Nat) : Prop := p ≤ a ∧ a < p + 2 ^ k

instance (p k a : Nat) : Decidable (InBlock p k a) := inferInstanceAs (Decidable (_ ∧ _))

def Aligned (p k : Nat) : Prop := 2 ^ k ∣ p

def buddy (p k : Nat) : Nat := p ^^^ 2 ^ k

theorem inBlock_self (p k : Nat) : InBlock p k p := ⟨le_rfl, Nat.lt_add_of_pos_right (Nat.two_pow_pos k)⟩

@[simp] theorem inBlock_zero (p a : Nat) : InBlock p 0 a ↔ a = p := by
  simp only [InBlock, pow_zero]
  omega

theorem aligned_zero (p : Nat) : Aligned p 0 := one_dvd p

theorem two_mul_xor_one (m : Nat) : 2 * m ^^^ 1 = 2 * m + 1 := by
  have half := @Nat.xor_div_two (2 * m) 1
  have parity := @Nat.xor_mod_two_eq (2 * m) 1
  rw [Nat.mul_div_cancel_left m (by decide), show 1 / 2 = 0 from rfl, Nat.xor_zero] at half
  omega

theorem two_mul_add_one_xor_one (m : Nat) : (2 * m + 1) ^^^ 1 = 2 * m := by
  rw [← two_mul_xor_one, Nat.xor_assoc, Nat.xor_self, Nat.xor_zero]

theorem two_mul_and_succ (m : Nat) : 2 * m &&& (2 * m + 1) = 2 * m := by
  have half := @Nat.and_div_two (2 * m) (2 * m + 1)
  have parity := @Nat.and_mod_two_eq_one (2 * m) (2 * m + 1)
  rw [Nat.mul_div_cancel_left m (by decide), show (2 * m + 1) / 2 = m by omega, Nat.and_self] at half
  omega

/-- An aligned block is the lower or the upper half of a block of the next order, and its
    buddy is the other half. -/
theorem halves {p k : Nat} (h : Aligned p k) :
    (Aligned p (k + 1) ∧ buddy p k = p + 2 ^ k ∧ p &&& buddy p k = p) ∨
      ∃ q, Aligned q (k + 1) ∧ p = q + 2 ^ k ∧ buddy p k = q ∧ p &&& buddy p k = q := by
  obtain ⟨n, rfl⟩ := h
  have shift (m : Nat) : 2 ^ k * m = m <<< k := by rw [Nat.shiftLeft_eq, Nat.mul_comm]
  have unit : 2 ^ k = 1 <<< k := by rw [Nat.one_shiftLeft]
  obtain ⟨m, even | odd⟩ := Nat.even_or_odd' n
  · subst even
    have other : buddy (2 ^ k * (2 * m)) k = 2 ^ k * (2 * m + 1) := by
      rw [buddy, shift, shift, unit, ← Nat.shiftLeft_xor_distrib, two_mul_xor_one]
    refine .inl ⟨⟨m, by rw [pow_succ, Nat.mul_assoc]⟩, by rw [other, Nat.mul_add, Nat.mul_one], ?_⟩
    rw [other, shift, shift, ← Nat.shiftLeft_and_distrib, two_mul_and_succ]
  · subst odd
    have other : buddy (2 ^ k * (2 * m + 1)) k = 2 ^ k * (2 * m) := by
      rw [buddy, shift, shift, unit, ← Nat.shiftLeft_xor_distrib, two_mul_add_one_xor_one]
    refine .inr ⟨2 ^ k * (2 * m), ⟨m, by rw [pow_succ, Nat.mul_assoc]⟩,
      by rw [Nat.mul_add, Nat.mul_one], other, ?_⟩
    rw [other, shift, shift, ← Nat.shiftLeft_and_distrib, Nat.and_comm, two_mul_and_succ]

theorem Aligned.of_succ {p k : Nat} (h : Aligned p (k + 1)) : Aligned p k :=
  (Nat.pow_dvd_pow 2 (Nat.le_succ k)).trans h

theorem Aligned.upper {p k : Nat} (h : Aligned p (k + 1)) : Aligned (p + 2 ^ k) k :=
  (Nat.dvd_add_right h.of_succ).mpr (dvd_refl _)

theorem Aligned.combined {p k : Nat} (h : Aligned p k) : Aligned (p &&& PowBlock.buddy p k) (k + 1) := by
  rcases halves h with ⟨up, -, eq⟩ | ⟨q, up, -, -, eq⟩
  · rw [eq]
    exact up
  · rw [eq]
    exact up

theorem buddy_buddy (p k : Nat) : buddy (buddy p k) k = p := by
  rw [buddy, buddy, Nat.xor_assoc, Nat.xor_self, Nat.xor_zero]

theorem buddy_ne (p k : Nat) : buddy p k ≠ p := by
  intro same
  have zero : p ^^^ (p ^^^ 2 ^ k) = 0 := by
    rw [show p ^^^ 2 ^ k = p from same, Nat.xor_self]
  rw [← Nat.xor_assoc, Nat.xor_self, Nat.zero_xor] at zero
  exact absurd zero (Nat.two_pow_pos k).ne'

/-- The combined block consists of the two buddies. -/
theorem inBlock_combined {p k : Nat} (h : Aligned p k) (a : Nat) :
    InBlock (p &&& buddy p k) (k + 1) a ↔ InBlock p k a ∨ InBlock (buddy p k) k a := by
  simp only [InBlock, pow_succ]
  rcases halves h with ⟨-, other, both⟩ | ⟨q, -, rfl, other, both⟩
  · rw [both, other]
    omega
  · rw [both, other]
    omega

theorem not_inBlock_buddy {p k : Nat} (h : Aligned p k) {a : Nat} (inside : InBlock p k a) :
    ¬ InBlock (buddy p k) k a := by
  simp only [InBlock] at *
  rcases halves h with ⟨-, other, -⟩ | ⟨q, -, rfl, other, -⟩
  · rw [other]
    omega
  · rw [other]
    omega

/-- The upper half has the lower one as its buddy. -/
theorem buddy_upper {p k : Nat} (h : Aligned p (k + 1)) : buddy (p + 2 ^ k) k = p := by
  have lower : buddy p k = p + 2 ^ k := by
    rcases halves h.of_succ with ⟨-, other, -⟩ | ⟨q, up, eq, -, -⟩
    · exact other
    · -- two multiples of the larger power do not differ by the smaller one
      have : 2 ^ (k + 1) ∣ 2 ^ k := (Nat.dvd_add_right up).mp (eq ▸ h)
      have le := Nat.le_of_dvd (Nat.two_pow_pos k) this
      have := Nat.two_pow_pos k
      rw [pow_succ] at le
      omega
  rw [← lower, buddy_buddy]

theorem inBlock_halves (p k a : Nat) :
    InBlock p (k + 1) a ↔ InBlock p k a ∨ InBlock (p + 2 ^ k) k a := by
  simp only [InBlock, pow_succ]
  omega

/-! ## Sets of aligned blocks

A set of disjoint aligned blocks in which no two buddies can be joined is the only one with its elements.
-/

variable {p q j k a : Nat}

/-- An aligned block consists of the numbers with one quotient. -/
theorem Aligned.inBlock_iff (h : Aligned p k) : InBlock p k a ↔ a / 2 ^ k = p / 2 ^ k := by
  obtain ⟨n, rfl⟩ := h
  have pos := Nat.two_pow_pos k
  rw [Nat.mul_div_cancel_left n pos, InBlock, Nat.div_eq_iff pos, Nat.mul_comm]
  omega

/-- Of two aligned blocks with a common element, the larger one holds the other. -/
theorem Aligned.within (h : Aligned p k) (h' : Aligned q j) (le : k ≤ j) (mine : InBlock p k a) (theirs : InBlock q j a)
    {x : Nat} (inside : InBlock p k x) : InBlock q j x := by
  obtain ⟨d, rfl⟩ := Nat.exists_eq_add_of_le le
  rw [h.inBlock_iff] at mine inside
  rw [h'.inBlock_iff] at theirs ⊢
  rw [← theirs, Nat.pow_add, ← Nat.div_div_eq_div_mul, ← Nat.div_div_eq_div_mul, inside, mine]

/-- The order is determined by the number of elements. -/
theorem order_le (within : ∀ x, InBlock p k x → InBlock q j x) : k ≤ j := by
  have first := within p (inBlock_self p k)
  have last := within (p + 2 ^ k - 1) (by
    have pos := Nat.two_pow_pos k
    simp only [InBlock]
    omega)
  simp only [InBlock] at first last
  by_contra less
  have grow : 2 ^ (j + 1) ≤ 2 ^ k := Nat.pow_le_pow_right (by decide) (by omega)
  have pos := Nat.two_pow_pos j
  rw [Nat.pow_succ] at grow
  omega

theorem block_ext (same : ∀ x, InBlock p k x ↔ InBlock q j x) : (p, k) = (q, j) := by
  have order : k = j := le_antisymm (order_le fun x => (same x).mp) (order_le fun x => (same x).mpr)
  have low := (same p).mp (inBlock_self p k)
  have high := (same q).mpr (inBlock_self q j)
  simp only [InBlock] at low high
  rw [order, le_antisymm high.1 low.1]

/-- Disjoint aligned blocks of orders below `cap`, no two of which are buddies that could be joined. -/
structure Joined (cap : Nat) (blocks : Set (Nat × Nat)) : Prop where
  order_lt : ∀ p k, (p, k) ∈ blocks → k < cap
  aligned : ∀ p k, (p, k) ∈ blocks → Aligned p k
  apart : ∀ p k q j a, (p, k) ∈ blocks → (q, j) ∈ blocks → InBlock p k a → InBlock q j a → (p, k) = (q, j)
  alone : ∀ p k, k + 1 < cap → (p, k) ∈ blocks → (buddy p k, k) ∉ blocks

/-- The elements of the blocks. -/
def elements (blocks : Set (Nat × Nat)) : Set Nat := {a | ∃ p k, (p, k) ∈ blocks ∧ InBlock p k a}

section

variable {cap : Nat} {blocks blocks' : Set (Nat × Nat)}

/-- A block whose elements all lie in the set lies in one block of it. -/
theorem Joined.exists_above (h : Joined cap blocks) : ∀ {k p : Nat}, Aligned p k → k < cap →
    (∀ x, InBlock p k x → x ∈ elements blocks) → ∃ q j, (q, j) ∈ blocks ∧ ∀ x, InBlock p k x → InBlock q j x := by
  intro k
  induction k with
  | zero =>
      intro p _ _ covered
      obtain ⟨q, j, member, inside⟩ := covered p (inBlock_self p 0)
      refine ⟨q, j, member, fun x here => ?_⟩
      rwa [(inBlock_zero p x).mp here]
  | succ k ih =>
      intro p aligned lt covered
      obtain ⟨q, j, member, lower⟩ := ih aligned.of_succ (Nat.lt_of_succ_lt lt) fun x here =>
        covered x ((inBlock_halves p k x).mpr (.inl here))
      obtain ⟨q', j', member', upper⟩ := ih aligned.upper (Nat.lt_of_succ_lt lt) fun x here =>
        covered x ((inBlock_halves p k x).mpr (.inr here))
      -- a block above one half that is larger than it lies above both
      have both {q j : Nat} (member : (q, j) ∈ blocks) {start : Nat} (self : InBlock p (k + 1) start)
          (inside : InBlock q j start) (more : k < j) {x : Nat} (here : InBlock p (k + 1) x) : InBlock q j x :=
        aligned.within (h.aligned q j member) more self inside here
      have low := lower p (inBlock_self p k)
      have high := upper (p + 2 ^ k) (inBlock_self _ k)
      by_cases more : k < j
      · exact ⟨q, j, member, fun x here => both member (inBlock_self p _) low more here⟩
      · by_cases more' : k < j'
        · have half : InBlock p (k + 1) (p + 2 ^ k) := (inBlock_halves p k _).mpr (.inr (inBlock_self _ k))
          exact ⟨q', j', member', fun x here => both member' half high more' here⟩
        · -- otherwise the halves themselves are in the set
          have order : j = k := le_antisymm (Nat.not_lt.mp more) (order_le lower)
          have order' : j' = k := le_antisymm (Nat.not_lt.mp more') (order_le upper)
          subst order order'
          have first := block_ext fun x => ⟨lower x, fun here =>
            (h.aligned q j' member).within aligned.of_succ le_rfl low (inBlock_self p j') here⟩
          have second := block_ext fun x => ⟨upper x, fun here =>
            (h.aligned q' j' member').within aligned.upper le_rfl high (inBlock_self _ j') here⟩
          rw [← first] at member
          rw [← second] at member'
          have buddies := h.alone _ _ lt member'
          rw [buddy_upper aligned] at buddies
          exact absurd member buddies

/-- The elements determine the blocks. -/
theorem Joined.unique (h : Joined cap blocks) (h' : Joined cap blocks') (same : elements blocks = elements blocks') :
    blocks = blocks' := by
  have sub {blocks blocks' : Set (Nat × Nat)} (h : Joined cap blocks) (h' : Joined cap blocks')
      (same : elements blocks = elements blocks') : blocks ⊆ blocks' := by
    rintro ⟨p, k⟩ member
    obtain ⟨q, j, member', above⟩ := h'.exists_above (h.aligned p k member) (h.order_lt p k member) fun x here => by
      rw [← same]
      exact ⟨p, k, member, here⟩
    obtain ⟨p', k', back, above'⟩ := h.exists_above (h'.aligned q j member') (h'.order_lt q j member') fun x here => by
      rw [same]
      exact ⟨q, j, member', here⟩
    have self := inBlock_self p k
    have one := h.apart p k p' k' p member back self (above' p (above p self))
    cases one
    rw [block_ext fun x => ⟨above x, above' x⟩]
    exact member'
  exact Set.Subset.antisymm (sub h h' same) (sub h' h same.symm)

end

end Miracle.PowBlock
