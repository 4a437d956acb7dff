import Miracle.Strtox.Grammar

/-! # The conversions are strict

With fewer than `2 ^ 31` leading digits every conversion accepts exactly the strings of its
grammar whose value fits.  A longer run runs into the overflow bit of the counter.
-/

namespace Miracle.Strtox

open Numeral

theorem s64_eq (v : Int) : s64 v = if v % 2 ^ 64 < 2 ^ 63 then v % 2 ^ 64 else v % 2 ^ 64 - 2 ^ 64 := by
  rw [s64, Int.bmod_def]
  norm_num

/-- The conversion to a signed type keeps exactly the values of the type. -/
theorem bmod_fixes {h : Nat} (pos : 0 < h) (v : Int) : v = v.bmod (2 * h) ↔ -h ≤ v ∧ v ≤ h - 1 := by
  constructor
  · intro is
    have low := @Int.le_bmod v (2 * h) (by omega)
    have high := @Int.bmod_lt v (2 * h) (by omega)
    omega
  · rintro ⟨low, high⟩
    exact (Int.bmod_eq_of_le (by omega) (by omega)).symm

/-- What a strict conversion of a type with the bounds `lo` and `hi` does. -/
structure Strict (signed : Bool) (lo hi : Int) (base : Nat) (s : List Char) (convert : Int → Int × Int) : Prop where
  ok : ∀ res, (convert res).1 = 0 ↔ ∃ v, Denotes signed base s v ∧ lo ≤ v ∧ v ≤ hi
  value : ∀ res v, Denotes signed base s v → (convert res).1 = 0 → (convert res).2 = v
  range : ∀ res v, Denotes signed base s v → ¬ (lo ≤ v ∧ v ≤ hi) → (convert res).1 = eRange
  invalid : (∀ v, ¬ Denotes signed base s v) → ∀ res,
    (convert res).1 = eInval ∨ (convert res).1 = eRange ∧ Exceeds signed base s
  untouched : ∀ res, (convert res).1 ≠ 0 → (convert res).2 = res

theorem eInval_neg : eInval < 0 := by decide

theorem eRange_neg : eRange < 0 := by decide

/-- A conversion that either writes the value or fails is strict if it fails as it should. -/
theorem Strict.of {signed : Bool} {lo hi : Int} {base : Nat} {s : List Char} {convert : Int → Int × Int}
    (fits : ∀ v, Denotes signed base s v → lo ≤ v ∧ v ≤ hi → ∀ res, convert res = (0, v))
    (outside : ∀ v, Denotes signed base s v → ¬ (lo ≤ v ∧ v ≤ hi) → ∀ res, convert res = (eRange, res))
    (none : (∀ v, ¬ Denotes signed base s v) → ∀ res,
      convert res = (eInval, res) ∨ convert res = (eRange, res) ∧ Exceeds signed base s) :
    Strict signed lo hi base s convert := by
  refine ⟨fun res => ⟨fun zero => ?_, ?_⟩, fun res v is zero => ?_, fun res v is out => ?_, fun no res => ?_, fun res failed => ?_⟩
  · by_contra bad
    by_cases is : ∃ v, Denotes signed base s v
    · obtain ⟨v, is⟩ := is
      rw [outside v is (fun inside => bad ⟨v, is, inside⟩)] at zero
      exact absurd zero eRange_neg.ne
    · rcases none (not_exists.mp is) res with eq | ⟨eq, -⟩
      · rw [eq] at zero
        exact absurd zero eInval_neg.ne
      · rw [eq] at zero
        exact absurd zero eRange_neg.ne
  · rintro ⟨v, is, inside⟩
    rw [fits v is inside]
  · by_cases inside : lo ≤ v ∧ v ≤ hi
    · rw [fits v is inside]
    · rw [outside v is inside] at zero
      exact absurd zero eRange_neg.ne
  · rw [outside v is out]
  · rcases none no res with eq | ⟨eq, exceeds⟩
    · exact .inl (by rw [eq])
    · exact .inr ⟨by rw [eq], exceeds⟩
  · by_cases is : ∃ v, Denotes signed base s v
    · obtain ⟨v, is⟩ := is
      by_cases inside : lo ≤ v ∧ v ≤ hi
      · rw [fits v is inside] at failed
        exact absurd rfl failed
      · rw [outside v is inside]
    · rcases none (not_exists.mp is) res with eq | ⟨eq, -⟩ <;> rw [eq]

section

variable {signed : Bool} {base : Nat} {s : List Char} (valid : ValidBase base)

include valid

/-- What the parser says about the part of the string after the sign. -/
theorem kstrtoullCore_body (noNul : nul ∉ s) (short : (leadingDigits signed base s).length < 2 ^ 31) :
    (∃ m, m < 2 ^ 64 ∧ (∀ v, Denotes signed base s v ↔ v = negated (bodyOf signed s).1 m) ∧
      ∀ res, kstrtoullCore (bodyOf signed s).2 base res = (0, (m : Int))) ∨
    (∃ m, 2 ^ 64 ≤ m ∧ (∀ v, Denotes signed base s v ↔ v = negated (bodyOf signed s).1 m) ∧
      ∀ res, kstrtoullCore (bodyOf signed s).2 base res = (eRange, res)) ∨
    (∀ v, ¬ Denotes signed base s v) ∧ ((∀ res, kstrtoullCore (bodyOf signed s).2 base res = (eInval, res)) ∨
      (∀ res, kstrtoullCore (bodyOf signed s).2 base res = (eRange, res)) ∧ Exceeds signed base s) := by
  cases fixed : fixupRadix (bodyOf signed s).2 base with
  | mk t' radix =>
      obtain ⟨ds, rest, vs, run⟩ := exists_run radix t'
      have digits : leadingDigits signed base s = ds := by
        unfold leadingDigits
        rw [fixed]
        exact run.takeWhile
      rw [digits, run.digits.length] at short
      have core := kstrtoullCore_short valid fixed run (body_noNul signed noNul) short
      have denotes (v : Int) : Denotes signed base s v ↔
          (vs ≠ [] ∧ (rest = [] ∨ rest = ['\n'])) ∧ v = negated (bodyOf signed s).1 (value radix vs) := by
        rw [denotes_iff]
        simp only [magnitude_iff fixed run]
        constructor
        · rintro ⟨m, ⟨some, ends, rfl⟩, rfl⟩
          exact ⟨⟨some, ends⟩, rfl⟩
        · rintro ⟨⟨some, ends⟩, rfl⟩
          exact ⟨_, ⟨some, ends, rfl⟩, rfl⟩
      by_cases whole : vs ≠ [] ∧ (rest = [] ∨ rest = ['\n'])
      · have one (v : Int) := (denotes v).trans (and_iff_right whole)
        by_cases out : 2 ^ 64 ≤ value radix vs
        · exact .inr (.inl ⟨_, out, one, fun res => by rw [core, if_pos out]⟩)
        · exact .inl ⟨_, Nat.not_le.mp out, one, fun res => by rw [core, if_neg out, if_pos whole]⟩
      · refine .inr (.inr ⟨fun v is => whole ((denotes v).mp is).1, ?_⟩)
        by_cases out : 2 ^ 64 ≤ value radix vs
        · exact .inr ⟨fun res => by rw [core, if_pos out], exceeds_of_run fixed run out⟩
        · exact .inl fun res => by rw [core, if_neg out, if_neg whole]

omit valid in
theorem bodyOf_plain (plain : ¬ (signed = true ∧ charAt s 0 = '-')) :
    bodyOf signed s = (false, if charAt s 0 = '+' then s.drop 1 else s) := by
  unfold bodyOf
  rw [if_neg plain]
  split <;> rfl

theorem kstrtoull_strict (noNul : nul ∉ s) (short : (leadingDigits false base s).length < 2 ^ 31) :
    Strict false 0 (2 ^ 64 - 1) base s (kstrtoull s base) := by
  have body : ∀ res, kstrtoull s base res = kstrtoullCore (bodyOf false s).2 base res := by
    intro res
    rw [bodyOf_plain fun minus => absurd minus.1 (by decide)]
    rfl
  have sign : (bodyOf false s).1 = false := by rw [bodyOf_plain fun minus => absurd minus.1 (by decide)]
  rcases kstrtoullCore_body valid noNul short with ⟨m, small, denotes, core⟩ | ⟨m, large, denotes, core⟩ | ⟨none, core⟩
  · rw [sign] at denotes
    refine .of (fun v is _ res => ?_) (fun v is out => ?_) (fun no => absurd ((denotes _).mpr rfl) (no _))
    · rw [body, core, (denotes v).mp is]
      rfl
    · rw [(denotes v).mp is, negated, if_neg (by decide)] at out
      omega
  · rw [sign] at denotes
    refine .of (fun v is inside => ?_) (fun v is out res => by rw [body, core]) (fun no => absurd ((denotes _).mpr rfl) (no _))
    rw [(denotes v).mp is, negated, if_neg (by decide)] at inside
    omega
  · refine .of (fun v is => absurd is (none v)) (fun v is => absurd is (none v)) (fun _ res => ?_)
    rcases core with eq | ⟨eq, exceeds⟩
    · exact .inl (by rw [body, eq])
    · exact .inr ⟨by rw [body, eq], exceeds⟩

theorem kstrtoll_strict (noNul : nul ∉ s) (short : (leadingDigits true base s).length < 2 ^ 31) :
    Strict true (-2 ^ 63) (2 ^ 63 - 1) base s (kstrtoll s base) := by
  have body : ∀ res, kstrtoll s base res =
      let core := kstrtoullCore (bodyOf true s).2 base 0
      if core.1 < 0 then (core.1, res)
      else if (bodyOf true s).1 = true then if s64 (-core.2) > 0 then (eRange, res) else (0, s64 (-core.2))
      else if s64 core.2 < 0 then (eRange, res) else (0, s64 core.2) := by
    intro res
    unfold kstrtoll
    by_cases minus : charAt s 0 = '-'
    · have eq : bodyOf true s = (true, s.drop 1) := if_pos ⟨rfl, minus⟩
      rw [if_pos minus, eq]
      rfl
    · rw [if_neg minus, bodyOf_plain fun both => minus both.2]
      simp only [Bool.false_eq_true, if_false]
      rfl
  rcases kstrtoullCore_body valid noNul short with ⟨m, small, denotes, core⟩ | ⟨m, large, denotes, core⟩ | ⟨none, core⟩
  · have word : (m : Int) < 2 ^ 64 := by exact_mod_cast small
    simp only [core, lt_self_iff_false, if_false] at body
    cases negative : (bodyOf true s).1 with
    | true =>
        rw [negative] at denotes body
        simp only [if_true] at body
        simp only [negated, if_true] at denotes
        refine .of (fun v is inside res => ?_) (fun v is out res => ?_) (fun no => absurd ((denotes _).mpr rfl) (no _))
        · rw [(denotes v).mp is] at inside ⊢
          have fixed : s64 (-m) = -m := by
            rw [s64_eq]
            omega
          rw [body, fixed, if_neg (by omega)]
        · rw [(denotes v).mp is] at out
          have wrapped : s64 (-m) = 2 ^ 64 - m := by
            rw [s64_eq]
            omega
          rw [body, wrapped, if_pos (by omega)]
    | false =>
        rw [negative] at denotes body
        simp only [Bool.false_eq_true, if_false] at body
        simp only [negated, Bool.false_eq_true, if_false] at denotes
        refine .of (fun v is inside res => ?_) (fun v is out res => ?_) (fun no => absurd ((denotes _).mpr rfl) (no _))
        · rw [(denotes v).mp is] at inside ⊢
          have fixed : s64 m = m := by
            rw [s64_eq]
            omega
          rw [body, fixed, if_neg (by omega)]
        · rw [(denotes v).mp is] at out
          have wrapped : s64 m = m - 2 ^ 64 := by
            rw [s64_eq]
            omega
          rw [body, wrapped, if_pos (by omega)]
  · simp only [core, if_pos eRange_neg] at body
    refine .of (fun v is inside => ?_) (fun v is out res => body res) (fun no => absurd ((denotes _).mpr rfl) (no _))
    rw [(denotes v).mp is, negated] at inside
    split at inside <;> omega
  · refine .of (fun v is => absurd is (none v)) (fun v is => absurd is (none v)) (fun _ res => ?_)
    rcases core with eq | ⟨eq, exceeds⟩
    · simp only [eq, if_pos eInval_neg] at body
      exact .inl (body res)
    · simp only [eq, if_pos eRange_neg] at body
      exact .inr ⟨body res, exceeds⟩

omit valid in
/-- A conversion to a part of the type. -/
theorem Strict.narrow {lo hi lo' hi' : Int} {wide : Int → Int × Int} (strict : Strict signed lo hi base s wide) {cast : Int → Int}
    (part : lo ≤ lo' ∧ hi' ≤ hi) (fixes : ∀ v, lo ≤ v → v ≤ hi → (v = cast v ↔ lo' ≤ v ∧ v ≤ hi')) :
    Strict signed lo' hi' base s (fun res => Strtox.narrow (wide 0) cast res) := by
  have failed (e : Int) (neg : e < 0) (is : (wide 0).1 = e) (res : Int) : Strtox.narrow (wide 0) cast res = (e, res) := by
    unfold Strtox.narrow
    simp only [is, if_pos neg]
  have done (v : Int) (is : Denotes signed base s v) (inside : lo ≤ v ∧ v ≤ hi) (res : Int) :
      Strtox.narrow (wide 0) cast res = if v ≠ cast v then (eRange, res) else (0, cast v) := by
    have zero := (strict.ok 0).mpr ⟨v, is, inside⟩
    unfold Strtox.narrow
    simp only [zero, lt_self_iff_false, if_false, strict.value 0 v is zero]
  refine .of (fun v is inside res => ?_) (fun v is out res => ?_) (fun none res => ?_)
  · have fixed := (fixes v (by omega) (by omega)).mpr inside
    rw [done v is (by omega), if_neg (not_not.mpr fixed), ← fixed]
  · by_cases within : lo ≤ v ∧ v ≤ hi
    · rw [done v is within, if_pos ((fixes v within.1 within.2).not.mpr out)]
    · exact failed _ eRange_neg (strict.range 0 v is within) res
  · rcases strict.invalid none 0 with eq | ⟨eq, exceeds⟩
    · exact .inl (failed _ eInval_neg eq res)
    · exact .inr ⟨failed _ eRange_neg eq res, exceeds⟩

end

/-! ## The conversions -/

inductive Conversion where
  | kstrtoull | kstrtoll | kstrtoul | kstrtol | kstrtouint | kstrtoint | kstrtou16 | kstrtos16 | kstrtou8 | kstrtos8
  deriving DecidableEq, Repr

namespace Conversion

def run : Conversion → List Char → Nat → Int → Int × Int
  | kstrtoull => Strtox.kstrtoull
  | kstrtoll => Strtox.kstrtoll
  | kstrtoul => Strtox.kstrtoul
  | kstrtol => Strtox.kstrtol
  | kstrtouint => Strtox.kstrtouint
  | kstrtoint => Strtox.kstrtoint
  | kstrtou16 => Strtox.kstrtou16
  | kstrtos16 => Strtox.kstrtos16
  | kstrtou8 => Strtox.kstrtou8
  | kstrtos8 => Strtox.kstrtos8

def signed : Conversion → Bool
  | kstrtoll | kstrtol | kstrtoint | kstrtos16 | kstrtos8 => true
  | _ => false

def bits : Conversion → Nat
  | kstrtoull | kstrtoll | kstrtoul | kstrtol => 64
  | kstrtouint | kstrtoint => 32
  | kstrtou16 | kstrtos16 => 16
  | kstrtou8 | kstrtos8 => 8

/-- The bounds of the type. -/
def low (k : Conversion) : Int := if k.signed then -2 ^ (k.bits - 1) else 0

def high (k : Conversion) : Int := if k.signed then 2 ^ (k.bits - 1) - 1 else 2 ^ k.bits - 1

end Conversion

/-- The conversion is strict on the string. -/
def Conversion.StrictOn (k : Conversion) (base : Nat) (s : List Char) : Prop :=
  Strict k.signed k.low k.high base s (k.run s base)

section

variable {base : Nat} {s : List Char} (valid : ValidBase base) (noNul : nul ∉ s)

include valid noNul

theorem Conversion.strict (k : Conversion) (short : (leadingDigits k.signed base s).length < 2 ^ 31) : k.StrictOn base s := by
  have unsigned (bits : Nat) (le : bits ≤ 64) (short : (leadingDigits false base s).length < 2 ^ 31) :
      Strict false 0 (2 ^ bits - 1) base s (fun res => narrow (Strtox.kstrtoull s base 0) (· % 2 ^ bits) res) := by
    have part : (2 : Int) ^ bits ≤ 2 ^ 64 := pow_le_pow_right₀ (by decide) le
    refine (kstrtoull_strict valid noNul short).narrow ⟨le_rfl, by omega⟩ fun v _ _ => ?_
    have pos : (0 : Int) < 2 ^ bits := by positivity
    constructor
    · intro is
      have low := Int.emod_nonneg v pos.ne'
      have high := Int.emod_lt_of_pos v pos
      omega
    · rintro ⟨low, high⟩
      exact (Int.emod_eq_of_lt low (by omega)).symm
  have signed (half : Nat) (pos : 0 < half) (le : half ≤ 2 ^ 63) (short : (leadingDigits true base s).length < 2 ^ 31) :
      Strict true (-half) (half - 1) base s (fun res => narrow (Strtox.kstrtoll s base 0) (·.bmod (2 * half)) res) := by
    refine (kstrtoll_strict valid noNul short).narrow ⟨by omega, by omega⟩ fun v _ _ => bmod_fixes pos v
  cases k with
  | kstrtoull => exact kstrtoull_strict valid noNul short
  | kstrtoll => exact kstrtoll_strict valid noNul short
  | kstrtoul => exact kstrtoull_strict valid noNul short
  | kstrtol => exact kstrtoll_strict valid noNul short
  | kstrtouint => exact unsigned 32 (by decide) short
  | kstrtoint => exact signed (2 ^ 31) (by decide) (by decide) short
  | kstrtou16 => exact unsigned 16 (by decide) short
  | kstrtos16 => exact signed (2 ^ 15) (by decide) (by decide) short
  | kstrtou8 => exact unsigned 8 (by decide) short
  | kstrtos8 => exact signed (2 ^ 7) (by decide) (by decide) short

omit noNul in
/-- A run that fills the counter up to the overflow bit is an error, whatever its value. -/
theorem kstrtoullCore_long {signed : Bool} {v : Int} (is : Denotes signed base s v) (word : v.natAbs < 2 ^ 64)
    (long : 2 ^ 31 ≤ (leadingDigits signed base s).length) :
    ∃ e, e < 0 ∧ ∀ res, kstrtoullCore (bodyOf signed s).2 base res = (e, res) := by
  cases fixed : fixupRadix (bodyOf signed s).2 base with
  | mk t' radix =>
      have bounds := valid.radix (bodyOf signed s).2
      rw [fixed] at bounds
      obtain ⟨ds, rest, vs, run⟩ := exists_run radix t'
      have digits : leadingDigits signed base s = ds := by
        unfold leadingDigits
        rw [fixed]
        exact run.takeWhile
      rw [digits] at long
      obtain ⟨m, whole, rfl⟩ := denotes_iff.mp is
      obtain ⟨-, -, rfl⟩ := (magnitude_iff fixed run).mp whole
      have small : value radix vs < 2 ^ 64 := by
        unfold negated at word
        split at word <;> omega
      have rv := @parseDigits_fits radix (by omega) bounds.2 vs 0 0 run.digits.lt (by decide) small
      rw [Nat.zero_add, ← run.digits.length] at rv
      unfold kstrtoullCore
      simp only [fixed, parseInteger, parseLoop_run run, rv]
      by_cases marked : u32 ds.length &&& kstrtoxOverflow ≠ 0
      · exact ⟨eRange, eRange_neg, fun res => if_pos marked⟩
      · refine ⟨eInval, eInval_neg, fun res => (if_neg marked).trans ?_⟩
        by_cases zero : u32 ds.length = 0
        · exact if_pos zero
        · -- the counter stops short of the end of the run
          have short : u32 ds.length < 2 ^ 31 := by
            by_contra large
            have bit : (u32 ds.length).testBit 31 = true := by
              rw [Nat.testBit_eq_decide_div_mod_eq, decide_eq_true_eq]
              have := u32_lt ds.length
              omega
            rw [kstrtoxOverflow, Nat.and_two_pow, bit] at marked
            exact marked (by decide)
          have inside : u32 ds.length < ds.length := by omega
          obtain ⟨c, v, first, code⟩ : ∃ c v, charAt (t'.drop (u32 ds.length)) 0 = c ∧ digit c = some v := by
            have lt : u32 ds.length < vs.length := by rwa [← run.digits.length]
            have here := List.forall₂_iff_get.mp run.digits
            refine ⟨_, _, ?_, (here.2 _ inside lt).1⟩
            rw [run.split, charAt, List.getD_eq_getElem?_getD, List.getElem?_drop, Nat.add_zero,
              List.getElem?_append_left inside, List.getElem?_eq_getElem inside]
            rfl
          have other (d : Char) (none : digit d = Option.none) : c ≠ d := by
            rintro rfl
            rw [code] at none
            cases none
          rw [if_neg zero, first, if_neg (other '\n' (by decide)), first, if_pos (other nul (by decide))]

omit noNul in
/-- A long run breaks every conversion of a value that fits. -/
theorem Conversion.fails (k : Conversion) {v : Int} (is : Denotes k.signed base s v) (fits : k.low ≤ v ∧ v ≤ k.high)
    (long : 2 ^ 31 ≤ (leadingDigits k.signed base s).length) : ¬ k.StrictOn base s := by
  intro strict
  have word : v.natAbs < 2 ^ 64 := by
    cases k <;> simp only [Conversion.low, Conversion.high, Conversion.signed, Conversion.bits] at fits <;> norm_num at fits <;>
      omega
  obtain ⟨e, negative, core⟩ := kstrtoullCore_long valid is word long
  have unsigned (is : k.signed = false) (res : Int) : Strtox.kstrtoull s base res = (e, res) := by
    rw [is, bodyOf_plain fun minus => absurd minus.1 (by decide)] at core
    exact core res
  have signed (is : k.signed = true) (res : Int) : Strtox.kstrtoll s base res = (e, res) := by
    rw [is] at core
    unfold Strtox.kstrtoll
    by_cases minus : charAt s 0 = '-'
    · rw [show bodyOf true s = (true, s.drop 1) from if_pos ⟨rfl, minus⟩] at core
      simp only [if_pos minus, core, if_pos negative]
    · rw [bodyOf_plain fun both => minus both.2] at core
      have plain : Strtox.kstrtoull s base 0 = (e, 0) := core 0
      simp only [if_neg minus, plain, if_pos negative]
  have narrowed (cast : Int → Int) (res : Int) : (narrow (e, 0) cast res).1 = e := by
    exact congrArg Prod.fst (if_pos negative)
  have failed : (k.run s base 0).1 = e := by
    cases k with
    | kstrtoull | kstrtoul => exact congrArg Prod.fst (unsigned rfl 0)
    | kstrtoll | kstrtol => exact congrArg Prod.fst (signed rfl 0)
    | kstrtouint | kstrtou16 | kstrtou8 => exact (congrArg (fun wide => (narrow wide _ 0).1) (unsigned rfl 0)).trans (narrowed _ 0)
    | kstrtoint | kstrtos16 | kstrtos8 => exact (congrArg (fun wide => (narrow wide _ 0).1) (signed rfl 0)).trans (narrowed _ 0)
  have ok := (strict.ok 0).mpr ⟨v, is, fits⟩
  rw [failed] at ok
  exact negative.ne ok

end

/-- Strict on every string with fewer than `2 ^ 31` leading digits, and on no other that denotes a
    value of the type. -/
theorem conversions_strict_iff (k : Conversion) (s : CString) {base : Nat} (valid : base = 0 ∨ 2 ≤ base ∧ base ≤ 16) :
    ((leadingDigits k.signed base s.chars).length < 2 ^ 31 → k.StrictOn base s.chars) ∧
    ∀ v, Denotes k.signed base s.chars v → k.low ≤ v ∧ v ≤ k.high →
      (k.StrictOn base s.chars ↔ (leadingDigits k.signed base s.chars).length < 2 ^ 31) := by
  refine ⟨k.strict valid s.noNul, fun v is fits => ⟨fun strict => ?_, k.strict valid s.noNul⟩⟩
  by_contra long
  exact k.fails valid is fits (Nat.not_lt.mp long) strict

/-- The number minus twelve with a prefix and a newline. -/
def minusTwelve : CString := ⟨['-', '0', 'X', 'c', '\n'], by decide⟩

theorem minusTwelve_strict : Conversion.kstrtos8.StrictOn 0 minusTwelve.chars ∧ kstrtos8 minusTwelve.chars 0 7 = (0, -12) :=
  ⟨(conversions_strict_iff .kstrtos8 minusTwelve (.inl rfl)).1 (by decide), by decide⟩

/-! ## Too many digits -/

def zeros (n : Nat) : CString :=
  ⟨List.replicate n '0', fun member => absurd (List.eq_of_mem_replicate member) (by decide)⟩

section

variable {n : Nat} (pos : 0 < n)

theorem zeros_run : Run 10 (zeros n).chars (zeros n).chars [] (List.replicate n 0) := by
  refine ⟨(List.append_nil _).symm, ?_, stops_nil 10⟩
  refine List.forall₂_iff_get.mpr ⟨by rw [zeros, List.length_replicate, List.length_replicate], fun i _ _ => ?_⟩
  simp only [zeros, List.get_eq_getElem, List.getElem_replicate]
  exact ⟨digit_zero, by decide⟩

theorem zeros_value : value 10 (List.replicate n 0) = 0 := by
  have eq := @value_zeros 10 [] n
  rwa [List.append_nil] at eq

theorem zeros_fixed : fixupRadix (zeros n).chars 10 = ((zeros n).chars, 10) := by
  unfold fixupRadix
  exact if_neg fun all => absurd all.1 (by simp [detectBase])

include pos

theorem zeros_body (signed : Bool) : bodyOf signed (zeros n).chars = (false, (zeros n).chars) := by
  obtain ⟨k, rfl⟩ : ∃ k, n = k + 1 := ⟨n - 1, by omega⟩
  have first : charAt (zeros (k + 1)).chars 0 = '0' := rfl
  unfold bodyOf
  rw [first, if_neg (by simp), if_neg (by decide)]

theorem zeros_denote : Denotes false 10 (zeros n).chars 0 := by
  refine denotes_iff.mpr ⟨0, ?_, by rw [zeros_body pos]; rfl⟩
  rw [zeros_body pos]
  refine (magnitude_iff zeros_fixed zeros_run).mpr ⟨?_, .inl rfl, zeros_value.symm⟩
  exact fun none => absurd (congrArg List.length none) (by rw [List.length_replicate]; exact pos.ne')

theorem zeros_refused (marked : u32 n &&& kstrtoxOverflow ≠ 0) (res : Int) : kstrtoull (zeros n).chars 10 res = (eRange, res) := by
  have same : kstrtoull (zeros n).chars 10 res = kstrtoullCore (bodyOf false (zeros n).chars).2 10 res := by
    rw [bodyOf_plain fun minus => absurd minus.1 (by decide)]
    rfl
  have run := @zeros_run n
  have rv := @parseDigits_fits 10 (by decide) (by decide) (List.replicate n 0) 0 0 run.digits.lt (by decide)
    (by rw [show extend 10 0 (List.replicate n 0) = 0 from zeros_value]; decide)
  rw [List.length_replicate, Nat.zero_add] at rv
  rw [same, zeros_body pos]
  unfold kstrtoullCore
  simp only [zeros_fixed, parseInteger, parseLoop_run run, rv]
  exact if_pos marked

end

/-- So many zeros denote zero, but their number looks like the overflow bit. -/
theorem many_zeros_refused : Denotes false 10 (zeros (2 ^ 31)).chars 0 ∧ kstrtoull (zeros (2 ^ 31)).chars 10 7 = (eRange, 7) ∧
    ¬ Conversion.kstrtoull.StrictOn 10 (zeros (2 ^ 31)).chars := by
  have denotes := @zeros_denote (2 ^ 31) (by decide)
  have refused := @zeros_refused (2 ^ 31) (by decide) (by decide) 7
  refine ⟨denotes, refused, fun strict => ?_⟩
  have ok := (strict.ok 7).mpr ⟨0, denotes, by decide⟩
  have code : (Conversion.kstrtoull.run (zeros (2 ^ 31)).chars 10 7).1 = eRange := congrArg Prod.fst refused
  rw [code] at ok
  exact absurd ok (by decide)

end Miracle.Strtox
