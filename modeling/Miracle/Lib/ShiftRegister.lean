import Mathlib.Logic.Function.Iterate
import Mathlib.Tactic

/-! # Linear feedback shift registers

A register moves its bits by one place and adds a fixed polynomial when a bit leaves it.  Both
directions are linear in exclusive or, so that some steps of a register are looked up in tables:
the bits that will leave are taken apart from the bits that only move.
-/

namespace Miracle

/-- How the bits move, and which bit leaves. -/
structure ShiftRegister (w : Nat) where
  shift : BitVec w → BitVec w
  out : BitVec w → Bool
  shift_xor : ∀ a b, shift (a ^^^ b) = shift a ^^^ shift b
  out_xor : ∀ a b, out (a ^^^ b) = (out a ^^ out b)

namespace ShiftRegister

variable {w : Nat}

section

variable (R : ShiftRegister w) (poly : BitVec w)

def step (c : BitVec w) : BitVec w := R.shift c ^^^ (if R.out c then poly else 0)

def steps (n : Nat) : BitVec w → BitVec w := (R.step poly)^[n]

theorem step_xor (a b : BitVec w) : R.step poly (a ^^^ b) = R.step poly a ^^^ R.step poly b := by
  unfold step
  rw [R.shift_xor, R.out_xor]
  cases R.out a <;> cases R.out b
  · simp
  · simp [BitVec.xor_assoc]
  · simp only [Bool.xor_false, if_true, Bool.false_eq_true, if_false]
    ac_rfl
  · have cancel : R.shift a ^^^ poly ^^^ (R.shift b ^^^ poly) = R.shift a ^^^ R.shift b ^^^ (poly ^^^ poly) := by ac_rfl
    simp [cancel]

theorem steps_xor (n : Nat) (a b : BitVec w) : R.steps poly n (a ^^^ b) = R.steps poly n a ^^^ R.steps poly n b := by
  induction n with
  | zero => rfl
  | succ n ih =>
      unfold steps at ih ⊢
      rw [Function.iterate_succ_apply', Function.iterate_succ_apply', Function.iterate_succ_apply', ih, step_xor]

theorem steps_zero (n : Nat) : R.steps poly n 0 = 0 := by
  have self := R.steps_xor poly n 0 0
  rwa [BitVec.xor_self, BitVec.xor_self] at self

theorem steps_add (m n : Nat) (c : BitVec w) : R.steps poly (m + n) c = R.steps poly m (R.steps poly n c) := Function.iterate_add_apply _ m n c

theorem steps_succ (n : Nat) (c : BitVec w) : R.steps poly (n + 1) c = R.steps poly n (R.step poly c) := Function.iterate_succ_apply _ n c

theorem step_steps (n : Nat) (c : BitVec w) : R.step poly (R.steps poly n c) = R.steps poly (n + 1) c :=
  (Function.iterate_succ_apply' _ n c).symm

/-- Bits that do not leave only move. -/
theorem steps_quiet {n : Nat} {c : BitVec w} (quiet : ∀ k < n, R.out (R.shift^[k] c) = false) : R.steps poly n c = R.shift^[n] c := by
  induction n with
  | zero => rfl
  | succ n ih =>
      have before := ih fun k less => quiet k (less.trans (Nat.lt_succ_self n))
      have last := quiet n (Nat.lt_succ_self n)
      rw [← R.step_steps poly, before, Function.iterate_succ_apply', step, last]
      simp

theorem shift_iterate_xor (n : Nat) (a b : BitVec w) : R.shift^[n] (a ^^^ b) = R.shift^[n] a ^^^ R.shift^[n] b := by
  induction n with
  | zero => rfl
  | succ n ih => rw [Function.iterate_succ_apply', Function.iterate_succ_apply', Function.iterate_succ_apply', ih, R.shift_xor]

/-- The bits that leave are looked up, the others only move. -/
theorem steps_split {n : Nat} {c leaving : BitVec w} (quiet : ∀ k < n, R.out (R.shift^[k] (c ^^^ leaving)) = false) (gone : R.shift^[n] leaving = 0) :
    R.steps poly n c = R.steps poly n leaving ^^^ R.shift^[n] c := by
  have parts : c = leaving ^^^ (c ^^^ leaving) := by
    rw [BitVec.xor_comm c, ← BitVec.xor_assoc, BitVec.xor_self, BitVec.zero_xor]
  have moved : R.shift^[n] (c ^^^ leaving) = R.shift^[n] c := by
    rw [shift_iterate_xor, gone]
    exact BitVec.xor_zero
  conv_lhs => rw [parts]
  rw [steps_xor, R.steps_quiet poly quiet, moved]

end

/-! ## Both directions -/

/-- The lowest bit leaves. -/
def right : ShiftRegister w where
  shift c := c >>> 1
  out c := c.getLsbD 0
  shift_xor a b := BitVec.ushiftRight_xor_distrib a b 1
  out_xor _ _ := BitVec.getLsbD_xor

/-- The highest bit leaves. -/
def left : ShiftRegister w where
  shift c := c <<< 1
  out c := c.msb
  shift_xor a b := BitVec.shiftLeft_xor_distrib a b 1
  out_xor _ _ := BitVec.msb_xor

theorem right_shift_iterate (n : Nat) (c : BitVec w) : (right : ShiftRegister w).shift^[n] c = c >>> n := by
  induction n with
  | zero => simp
  | succ n ih =>
      rw [Function.iterate_succ_apply', ih, BitVec.shiftRight_add]
      rfl

theorem left_shift_iterate (n : Nat) (c : BitVec w) : (left : ShiftRegister w).shift^[n] c = c <<< n := by
  induction n with
  | zero => simp
  | succ n ih =>
      rw [Function.iterate_succ_apply', ih, BitVec.shiftLeft_add]
      rfl

theorem right_out_shift (k : Nat) (c : BitVec w) : (right : ShiftRegister w).out ((right : ShiftRegister w).shift^[k] c) = c.getLsbD k := by
  rw [right_shift_iterate]
  exact BitVec.getLsbD_ushiftRight ..

theorem left_out_shift (k : Nat) (c : BitVec w) : (left : ShiftRegister w).out ((left : ShiftRegister w).shift^[k] c) = c.getMsbD k := by
  rw [left_shift_iterate]
  change (c <<< k).msb = c.getMsbD k
  rw [BitVec.msb, BitVec.getMsbD_shiftLeft, Nat.zero_add]

end ShiftRegister

end Miracle
