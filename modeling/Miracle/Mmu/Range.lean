import Miracle.Mmu.Basic

/-! # The loops over an address range

A range is cut at the multiples of a block size.  The comparisons of the code are made on words
that may have wrapped to zero at the end of the address space; on the numbers they are the
minimum of the boundary and the end.
-/

namespace Miracle.Mmu

/-- Where the part of a range that starts at `a` ends. -/
def pieceEnd (S a e : Nat) : Nat := min ((a / S + 1) * S) e

/-- `[x, n)` is the part of `[a, e)` in one block. -/
structure Piece (S a e x n : Nat) : Prop where
  start : a ≤ x
  lt : x < n
  finish : n ≤ e
  ends : n = pieceEnd S x e
  starts : x = a ∨ x % S = 0

section

variable {S a e x n : Nat}

theorem pieceEnd_le (S a e : Nat) : pieceEnd S a e ≤ e := Nat.min_le_right _ _

theorem lt_pieceEnd (pos : 0 < S) (lt : a < e) : a < pieceEnd S a e := by
  refine lt_min ?_ lt
  have := Nat.div_add_mod a S
  have := Nat.mod_lt a pos
  rw [Nat.add_one_mul, Nat.mul_comm]
  omega

theorem Piece.first (pos : 0 < S) (lt : a < e) : Piece S a e a (pieceEnd S a e) :=
  ⟨le_rfl, lt_pieceEnd pos lt, pieceEnd_le S a e, rfl, .inl rfl⟩

/-- A part that is not the last ends at a boundary. -/
theorem pieceEnd_of_ne (ne : pieceEnd S a e ≠ e) : pieceEnd S a e = (a / S + 1) * S := by
  simp only [pieceEnd] at *
  omega

theorem Piece.rest {m : Nat} (boundary : m = (a / S + 1) * S) (here : Piece S m e x n)
    (before : a ≤ m) : Piece S a e x n :=
  ⟨before.trans here.start, here.lt, here.finish, here.ends, .inr (by
    obtain rfl | aligned := here.starts
    · rw [boundary, Nat.mul_mod_left]
    · exact aligned)⟩

/-- All addresses of a part are in one block. -/
theorem Piece.div_eq (h : Piece S a e x n) {va : Nat} (low : x ≤ va) (high : va < n) :
    va / S = x / S := by
  have bound : va < (x / S + 1) * S := lt_of_lt_of_le high (h.ends ▸ Nat.min_le_left _ _)
  exact Nat.le_antisymm (Nat.lt_succ_iff.mp (Nat.div_lt_of_lt_mul (by rwa [Nat.mul_comm]))) (Nat.div_le_div_right low)

/-- A part and its ends are aligned when it is a whole block of the range. -/
theorem Piece.aligned_iff (pos : 0 < S) (h : Piece S a e x n) :
    x % S = 0 ∧ n % S = 0 ↔ a ≤ x / S * S ∧ x / S * S + S ≤ e := by
  obtain ⟨start, lt, finish, ends, starts⟩ := h
  have split := Nat.div_add_mod x S
  rw [Nat.mul_comm] at split
  have bound := Nat.mod_lt x pos
  rw [pieceEnd, Nat.add_one_mul] at ends
  constructor
  · rintro ⟨low, high⟩
    refine ⟨by omega, ?_⟩
    by_contra short
    have clipped : n = e := by omega
    have : x / S * S < n ∧ n < x / S * S + S := by omega
    obtain ⟨q, rfl⟩ := Nat.dvd_of_mod_eq_zero high
    have lower : x / S < q := by
      by_contra le
      have := Nat.mul_le_mul_left S (Nat.not_lt.mp le)
      rw [Nat.mul_comm S (x / S)] at this
      omega
    have := Nat.mul_le_mul_left S lower
    rw [Nat.mul_succ, Nat.mul_comm S (x / S)] at this
    omega
  · rintro ⟨low, high⟩
    have start : x % S = 0 := by
      obtain rfl | aligned := starts
      · omega
      · exact aligned
    refine ⟨start, ?_⟩
    have : n = (x / S + 1) * S := by
      rw [Nat.add_one_mul]
      omega
    rw [this, Nat.mul_mod_left]

end

/-! ## Wrapped comparisons -/

theorem pred_wrapped {n : Nat} (pos : 0 < n) (le : n ≤ 2 ^ 64) :
    (n % 2 ^ 64 + (2 ^ 64 - 1)) % 2 ^ 64 = n - 1 := by
  omega

theorem boundary_wrapped {k : Nat} (small : k < 64) (a : Nat) :
    (a + 2 ^ k) % 2 ^ 64 / 2 ^ k * 2 ^ k = (a / 2 ^ k + 1) * 2 ^ k % 2 ^ 64 := by
  have dvd : 2 ^ k ∣ 2 ^ 64 := Nat.pow_dvd_pow 2 small.le
  have pos := Nat.two_pow_pos k
  have floor (m : Nat) : m % 2 ^ 64 / 2 ^ k * 2 ^ k = m / 2 ^ k * 2 ^ k % 2 ^ 64 := by
    have split : (m - m % 2 ^ k) % 2 ^ 64 = m % 2 ^ 64 - m % 2 ^ k := by
      have le : m % 2 ^ k ≤ m % 2 ^ 64 := by
        rw [← Nat.mod_mod_of_dvd m dvd]
        exact Nat.mod_le _ _
      have := Nat.div_add_mod m (2 ^ 64)
      have bound := Nat.mod_lt m (Nat.two_pow_pos 64)
      have : m - m % 2 ^ k = m % 2 ^ 64 - m % 2 ^ k + 2 ^ 64 * (m / 2 ^ 64) := by omega
      rw [this, Nat.add_mul_mod_self_left, Nat.mod_eq_of_lt (by omega)]
    have down (m : Nat) : m / 2 ^ k * 2 ^ k = m - m % 2 ^ k := by
      have := Nat.div_add_mod m (2 ^ k)
      rw [Nat.mul_comm] at this
      omega
    rw [down, down, split, Nat.mod_mod_of_dvd m dvd]
  rw [floor, Nat.add_div_right _ pos]

theorem addrEnd_eq {k a e : Nat} (small : k < 64) (lt : a < e) (le : e ≤ 2 ^ 64) :
    addrEnd (2 ^ k) a (e % 2 ^ 64) = pieceEnd (2 ^ k) a e % 2 ^ 64 := by
  have inside : a < 2 ^ 64 := lt_of_lt_of_le lt le
  have top : (a / 2 ^ k + 1) * 2 ^ k ≤ 2 ^ 64 := by
    have dvd : 2 ^ k ∣ 2 ^ 64 := Nat.pow_dvd_pow 2 small.le
    obtain ⟨q, same⟩ := dvd
    have : a / 2 ^ k < q := Nat.div_lt_of_lt_mul (by rwa [← same])
    rw [same, Nat.mul_comm]
    exact Nat.mul_le_mul_left _ this
  have pos : 0 < (a / 2 ^ k + 1) * 2 ^ k := Nat.mul_pos (Nat.succ_pos _) (Nat.two_pow_pos k)
  simp only [addrEnd, boundary_wrapped small a, pred_wrapped pos top, pred_wrapped (Nat.zero_lt_of_lt lt) le]
  simp only [pieceEnd]
  generalize (a / 2 ^ k + 1) * 2 ^ k = b at *
  split
  next less => rw [Nat.min_eq_left (by omega)]
  next more => rw [Nat.min_eq_right (by omega)]

theorem page_next_eq {a e : Nat} (aligned : a % pageSize = 0) (whole : e % pageSize = 0) (lt : a < e) :
    (a + pageSize) % 2 ^ 64 = pieceEnd pageSize a e % 2 ^ 64 := by
  have : pieceEnd pageSize a e = a + pageSize := by
    simp only [pieceEnd, pageSize] at *
    omega
  rw [this]

/-! ## The loop -/

section

variable {σ : Type} {nextOf : Nat → Nat → Nat} {body : Nat → Nat → Nat → Nat → σ → Except Bug σ} {S : Nat}

/-- The round that the loop makes at a part of the range. -/
def round (body : Nat → Nat → Nat → Nat → σ → Except Bug σ) (S a i p x n : Nat) (st : σ) : Except Bug σ :=
  body (i + (x / S - a / S)) x (n % 2 ^ 64) (p + (x - a)) st

theorem round_rest {a i p m x n : Nat} (st : σ) (pos : 0 < S) (boundary : m = (a / S + 1) * S) (start : m ≤ x)
    (before : a ≤ m) : round body S m (i + 1) (p + (m - a)) x n st = round body S a i p x n st := by
  have div : m / S = a / S + 1 := by rw [boundary, Nat.mul_div_cancel _ pos]
  have le : m / S ≤ x / S := Nat.div_le_div_right start
  simp only [round]
  congr 1
  · omega
  · omega

/-- A relation that holds of each round and is transitive holds of the loop. -/
theorem rangeLoop_ok {a e i p rounds : Nat} {st st' : σ} (R : Nat → Nat → σ → σ → Prop) (pos : 0 < S)
    (next : ∀ x n, Piece S a e x n → nextOf x (e % 2 ^ 64) = n % 2 ^ 64)
    (step : ∀ x n st st', Piece S a e x n → round body S a i p x n st = .ok st' → R x n st st')
    (trans : ∀ x m n s₁ s₂ s₃, x < m → m < n → R x m s₁ s₂ → R m n s₂ s₃ → R x n s₁ s₃)
    (lt : a < e) (le : e ≤ 2 ^ 64) (fits : p + (e - a) < 2 ^ 64)
    (done : rangeLoop nextOf body rounds i a (e % 2 ^ 64) p st = .ok st') : R a e st st' := by
  -- on the number of rounds: the rest of the range starts at a boundary, one entry further
  induction rounds generalizing a i p st with
  | zero => cases done
  | succ rounds ih =>
      have here : Piece S a e a (pieceEnd S a e) := .first pos lt
      simp only [rangeLoop, next a _ here] at done
      cases first : body i a (pieceEnd S a e % 2 ^ 64) p st with
      | error bug =>
          rw [first] at done
          cases done
      | ok mid =>
          have head : R a (pieceEnd S a e) st mid := step a _ st mid here (by simpa [round] using first)
          rw [first] at done
          by_cases last : pieceEnd S a e = e
          · simp only [last, bind, Except.bind, if_true, pure, Except.pure] at done
            rw [← Except.ok.inj done]
            rwa [last] at head
          · have boundary := pieceEnd_of_ne last
            have short : pieceEnd S a e < e := lt_of_le_of_ne (pieceEnd_le S a e) last
            have before := here.lt
            have small : pieceEnd S a e % 2 ^ 64 = pieceEnd S a e := Nat.mod_eq_of_lt (by omega)
            have unequal : pieceEnd S a e ≠ e % 2 ^ 64 := by omega
            have phys : (p + (pieceEnd S a e + 2 ^ 64 - a)) % 2 ^ 64 = p + (pieceEnd S a e - a) := by omega
            simp only [bind, Except.bind, small, if_neg unequal, phys] at done
            refine trans a _ e st mid st' here.lt short head (ih ?_ ?_ short ?_ done)
            · exact fun x n piece => next x n (piece.rest boundary here.lt.le)
            · intro x n s s' piece made
              rw [round_rest s pos boundary piece.start here.lt.le] at made
              exact step x n s s' (piece.rest boundary here.lt.le) made
            · omega

/-- A condition on what is left of the range that each round keeps lets the loop return. -/
theorem rangeLoop_total {a e i p rounds : Nat} {st : σ} (I : Nat → σ → Prop) (pos : 0 < S)
    (next : ∀ x n, Piece S a e x n → nextOf x (e % 2 ^ 64) = n % 2 ^ 64)
    (step : ∀ x n st, Piece S a e x n → I x st → ∃ st', round body S a i p x n st = .ok st' ∧ I n st')
    (lt : a < e) (le : e ≤ 2 ^ 64) (fits : p + (e - a) < 2 ^ 64) (enough : e ≤ (a / S + rounds) * S) (start : I a st) :
    ∃ st', rangeLoop nextOf body rounds i a (e % 2 ^ 64) p st = .ok st' := by
  induction rounds generalizing a i p st with
  | zero =>
      have := Nat.div_mul_le_self a S
      rw [Nat.add_zero] at enough
      omega
  | succ rounds ih =>
      have here : Piece S a e a (pieceEnd S a e) := .first pos lt
      obtain ⟨mid, first, kept⟩ := step a _ st here start
      simp only [round, Nat.sub_self, Nat.add_zero] at first
      simp only [rangeLoop, next a _ here, first]
      by_cases last : pieceEnd S a e = e
      · exact ⟨mid, by simp [last, bind, Except.bind, pure, Except.pure]⟩
      · have boundary := pieceEnd_of_ne last
        have short : pieceEnd S a e < e := lt_of_le_of_ne (pieceEnd_le S a e) last
        have before := here.lt
        have small : pieceEnd S a e % 2 ^ 64 = pieceEnd S a e := Nat.mod_eq_of_lt (by omega)
        have unequal : pieceEnd S a e ≠ e % 2 ^ 64 := by omega
        have phys : (p + (pieceEnd S a e + 2 ^ 64 - a)) % 2 ^ 64 = p + (pieceEnd S a e - a) := by omega
        simp only [bind, Except.bind, small, if_neg unequal, phys]
        refine ih ?_ ?_ short (by omega) ?_ kept
        · exact fun x n piece => next x n (piece.rest boundary before.le)
        · intro x n s piece ready
          obtain ⟨s', made, kept⟩ := step x n s (piece.rest boundary before.le) ready
          refine ⟨s', ?_, kept⟩
          rwa [round_rest s pos boundary piece.start before.le]
        · have div : pieceEnd S a e / S = a / S + 1 := by rw [boundary, Nat.mul_div_cancel _ pos]
          rw [div]
          calc e ≤ (a / S + (rounds + 1)) * S := enough
            _ = (a / S + 1 + rounds) * S := by ring

end

end Miracle.Mmu
