import Miracle.Strtox.Basic

/-! # The grammar of the integers

What the strings denote: an optional sign, for base 16 or an automatic base an optional prefix,
at least one digit and at most one newline.  The start of a string alone decides the radix.
-/

namespace Miracle.Strtox

open Numeral

/-- The radix of a numeral with this prefix and these digits. -/
inductive Radix : (base radix : Nat) → (lead ds : List Char) → Prop where
  | given {base : Nat} {ds : List Char} (named : base ≠ 0) : Radix base base [] ds
  | hex {base : Nat} {x : Char} {ds : List Char} (either : base = 0 ∨ base = 16) (letter : x = 'x' ∨ x = 'X') :
      Radix base 16 ['0', x] ds
  | octal {ds : List Char} : Radix 0 8 [] ('0' :: ds)
  | decimal {c : Char} {ds : List Char} (other : c ≠ '0') : Radix 0 10 [] (c :: ds)

/-- A numeral without a sign. -/
def Magnitude (base : Nat) (s : List Char) (m : Nat) : Prop :=
  ∃ radix lead ds vs, Radix base radix lead ds ∧ s = lead ++ ds ∧ ds ≠ [] ∧ Digits radix ds vs ∧ m = value radix vs

/-- The sign of a numeral, and whether it is a minus. -/
inductive Sign (signed : Bool) : List Char → Bool → Prop where
  | none : Sign signed [] false
  | plus : Sign signed ['+'] false
  | minus (may : signed = true) : Sign signed ['-'] true

def negated (negative : Bool) (m : Nat) : Int := if negative then -m else m

/-- The whole string is a numeral of this value. -/
def Denotes (signed : Bool) (base : Nat) (s : List Char) (v : Int) : Prop :=
  ∃ sign negative body newline m, s = sign ++ body ++ newline ∧ Sign signed sign negative ∧ Magnitude base body m ∧
    (newline = [] ∨ newline = ['\n']) ∧ v = negated negative m

/-- The first digits alone leave the word. -/
def Exceeds (signed : Bool) (base : Nat) (s : List Char) : Prop :=
  ∃ sign negative lead ds rest vs radix, s = sign ++ lead ++ ds ++ rest ∧ Sign signed sign negative ∧
    Radix base radix lead ds ∧ Run radix (ds ++ rest) ds rest vs ∧ 2 ^ 64 ≤ value radix vs

/-! ## Characters -/

theorem tolower_x {c : Char} : tolower c = 'x'.toNat ↔ c = 'x' ∨ c = 'X' := by
  have small : ∀ n, n < 121 → (n ||| 32 = 120 ↔ n = 120 ∨ n = 88) := by decide
  rw [← Char.toNat_inj, ← Char.toNat_inj]
  by_cases lt : c.toNat < 121
  · exact small _ lt
  · have folded : c.toNat ≤ tolower c := Nat.left_le_or
    change tolower c = 120 ↔ c.toNat = 120 ∨ c.toNat = 88
    omega

theorem digit_x {x : Char} (letter : x = 'x' ∨ x = 'X') : digit x = none := by
  rcases letter with rfl | rfl <;> decide

theorem digit_isxdigit {c : Char} {v : Nat} (code : digit c = some v) : isxdigit c = true := by
  unfold digit at code
  simp only [isxdigit, isdigit, decide_eq_true_eq]
  split at code
  · exact .inl ‹_›
  · split at code
    · exact .inr (.inr ‹_›)
    · split at code
      · exact .inr (.inl ‹_›)
      · cases code

theorem digit_zero : digit '0' = some 0 := by decide

/-! ## The radix -/

/-- The prefix that was skipped and the radix that was found belong together. -/
theorem fixupRadix_split (s : List Char) (base : Nat) :
    ∃ lead, s = lead ++ (fixupRadix s base).1 ∧ ∀ ds rest, (fixupRadix s base).1 = ds ++ rest → ds ≠ [] →
      Radix base (fixupRadix s base).2 lead ds := by
  have skip (zero : charAt s 0 = '0') (fold : tolower (charAt s 1) = 'x'.toNat) :
      ∃ x rest, s = '0' :: x :: rest ∧ (x = 'x' ∨ x = 'X') := by
    cases s with
    | nil => exact absurd zero (by decide)
    | cons c s =>
        cases s with
        | nil => exact absurd (show tolower nul = 'x'.toNat from fold) (by decide)
        | cons x rest => exact ⟨x, rest, by rw [show c = '0' from zero], tolower_x.mp fold⟩
  have hex (either : base = 0 ∨ base = 16) (zero : charAt s 0 = '0') (fold : tolower (charAt s 1) = 'x'.toNat) :
      ∃ lead, s = lead ++ s.drop 2 ∧ ∀ ds rest, s.drop 2 = ds ++ rest → ds ≠ [] → Radix base 16 lead ds := by
    obtain ⟨x, rest, rfl, letter⟩ := skip zero fold
    exact ⟨['0', x], rfl, fun _ _ _ _ => .hex either letter⟩
  have whole (radix : Nat) (is : ∀ c ds, s = c :: ds → ∀ ds', Radix base radix [] (c :: ds')) :
      ∃ lead, s = lead ++ s ∧ ∀ ds rest, s = ds ++ rest → ds ≠ [] → Radix base radix lead ds := by
    refine ⟨[], rfl, fun ds rest split nonempty => ?_⟩
    cases ds with
    | nil => exact absurd rfl nonempty
    | cons c ds => exact is c (ds ++ rest) split ds
  unfold fixupRadix detectBase
  by_cases auto : base = 0
  · subst auto
    simp only [if_true]
    by_cases zero : charAt s 0 = '0'
    · by_cases fold : tolower (charAt s 1) = 'x'.toNat ∧ isxdigit (charAt s 2) = true
      · simp only [zero, fold, and_self, if_true]
        exact hex (.inl rfl) zero fold.1
      · simp only [if_pos zero, if_neg fold, Nat.reduceEqDiff, false_and, if_false]
        refine whole 8 fun c ds split ds' => ?_
        rw [split] at zero
        rw [show c = '0' from zero]
        exact .octal
    · simp only [if_neg zero, Nat.reduceEqDiff, false_and, if_false]
      refine whole 10 fun c ds split ds' => .decimal ?_
      rw [split] at zero
      exact zero
  · simp only [if_neg auto]
    split
    · rename_i both
      obtain ⟨rfl, zero, fold⟩ := both
      exact hex (.inr rfl) zero fold
    · exact ⟨[], rfl, fun _ _ _ _ => .given auto⟩

/-- A numeral is read with its radix, whatever follows it but an `x` after a single digit. -/
theorem fixupRadix_radix {base radix : Nat} {lead ds rest : List Char} {vs : List Nat} (is : Radix base radix lead ds)
    (nonempty : ds ≠ []) (digits : Digits radix ds vs)
    (after : lead = [] → ds.length = 1 → tolower (charAt rest 0) ≠ 'x'.toNat) :
    fixupRadix (lead ++ ds ++ rest) base = (ds ++ rest, radix) := by
  -- after a first digit there is no `x`
  have second (bare : lead = []) (c : Char) (ds' : List Char) (eq : ds = c :: ds') : tolower (charAt (ds' ++ rest) 0) ≠ 'x'.toNat := by
    subst eq
    cases digits with
    | cons _ more =>
        cases more with
        | nil => exact after bare rfl
        | cons here _ =>
            intro fold
            have none := digit_x (tolower_x.mp fold)
            rw [show charAt _ 0 = _ from rfl] at none
            simp only [charAt, List.cons_append, List.getD_cons_zero] at none
            rw [none] at here
            exact absurd here.1 (by simp)
  cases is with
  | given named =>
      have same : detectBase ([] ++ ds ++ rest) base = base := if_neg named
      unfold fixupRadix
      rw [same]
      refine if_neg ?_
      rintro ⟨-, zero, fold⟩
      cases ds with
      | nil => exact nonempty rfl
      | cons c ds' => exact second rfl c ds' rfl fold
  | @hex _ x _ either letter =>
      have fold : tolower x = 'x'.toNat := tolower_x.mpr letter
      have first : isxdigit (charAt (ds ++ rest) 0) = true := by
        cases digits with
        | nil => exact absurd rfl nonempty
        | cons here _ => exact digit_isxdigit here.1
      have sixteen : detectBase (['0', x] ++ ds ++ rest) base = 16 := by
        rcases either with rfl | rfl
        · exact (if_pos rfl).trans ((if_pos rfl).trans (if_pos ⟨fold, first⟩))
        · rfl
      unfold fixupRadix
      rw [sixteen]
      exact if_pos ⟨rfl, rfl, fold⟩
  | @octal ds' =>
      have eight : detectBase ([] ++ '0' :: ds' ++ rest) 0 = 8 :=
        (if_pos rfl).trans ((if_pos rfl).trans (if_neg fun both => second rfl '0' ds' rfl both.1))
      unfold fixupRadix
      rw [eight]
      rfl
  | @decimal c ds' other =>
      have ten : detectBase ([] ++ c :: ds' ++ rest) 0 = 10 := (if_pos rfl).trans (if_neg other)
      unfold fixupRadix
      rw [ten]
      rfl

/-! ## The parts of a string

A conversion reads its string in one way: the sign, the radix, the run of digits and the rest are
determined, and so is the value that the grammar gives to the string.
-/

/-! ## The parts of a string -/

/-- What follows the sign, and whether that is a minus. -/
def bodyOf (signed : Bool) (s : List Char) : Bool × List Char :=
  if signed = true ∧ charAt s 0 = '-' then (true, s.drop 1)
  else if charAt s 0 = '+' then (false, s.drop 1)
  else (false, s)

/-- The first digits after the sign and the prefix. -/
def leadingDigits (signed : Bool) (base : Nat) (s : List Char) : List Char :=
  let (t, radix) := fixupRadix (bodyOf signed s).2 base
  t.takeWhile fun c => (digit c).any (· < radix)

theorem Digits.length {base : Nat} {ds : List Char} {vs : List Nat} (digits : Digits base ds vs) : ds.length = vs.length :=
  List.Forall₂.length_eq digits

theorem Digits.all {base : Nat} {ds : List Char} {vs : List Nat} (digits : Digits base ds vs) :
    ∀ c ∈ ds, (digit c).any (· < base) = true := by
  induction digits with
  | nil => nofun
  | cons here _ ih => exact List.forall_mem_cons.mpr ⟨by simp [here.1, here.2], ih⟩

theorem Run.takeWhile {base : Nat} {s ds rest : List Char} {vs : List Nat} (run : Run base s ds rest vs) :
    s.takeWhile (fun c => (digit c).any (· < base)) = ds := by
  obtain ⟨rfl, digits, stops⟩ := run
  rw [List.takeWhile_append_of_pos digits.all]
  cases rest with
  | nil => exact List.append_nil ds
  | cons c rest =>
      rw [List.takeWhile_cons_of_neg, List.append_nil]
      cases code : digit c with
      | none => simp
      | some v => simpa using stops v code

theorem stops_newline (base : Nat) {newline : List Char} (is : newline = [] ∨ newline = ['\n']) : Stops base newline := by
  rcases is with rfl | rfl
  · exact stops_nil base
  · intro v code
    exact absurd (show digit '\n' = some v from code) (by rw [show digit '\n' = none by decide]; simp)

theorem magnitude_head {base m : Nat} {body : List Char} (is : Magnitude base body m) : ∃ v, digit (charAt body 0) = some v := by
  obtain ⟨radix, lead, ds, vs, radixIs, rfl, nonempty, digits, -⟩ := is
  have first : ∃ v, digit (charAt ds 0) = some v := by
    cases digits with
    | nil => exact absurd rfl nonempty
    | cons here _ => exact ⟨_, here.1⟩
  cases radixIs with
  | given | octal | decimal => exact first
  | hex => exact ⟨0, digit_zero⟩

section

variable {base radix m : Nat} {t t' ds rest : List Char} {vs : List Nat} (fixed : fixupRadix t base = (t', radix))
  (run : Run radix t' ds rest vs)

include fixed run

/-- The numerals that a string can be read as. -/
theorem magnitude_iff : (∃ body newline, t = body ++ newline ∧ (newline = [] ∨ newline = ['\n']) ∧ Magnitude base body m) ↔
    vs ≠ [] ∧ (rest = [] ∨ rest = ['\n']) ∧ m = value radix vs := by
  constructor
  · rintro ⟨body, newline, rfl, is, radix', lead, ds', vs', radixIs, rfl, nonempty, digits, rfl⟩
    have after : tolower (charAt newline 0) ≠ 'x'.toNat := by
      rcases is with rfl | rfl <;> decide
    rw [fixupRadix_radix radixIs nonempty digits fun _ _ => after] at fixed
    cases fixed
    obtain ⟨rfl, rfl, rfl⟩ := run.unique ⟨rfl, digits, stops_newline radix is⟩
    refine ⟨?_, is, rfl⟩
    rintro rfl
    exact nonempty (List.length_eq_zero_iff.mp digits.length)
  · rintro ⟨nonempty, is, rfl⟩
    obtain ⟨split, digits, -⟩ := run
    have some : ds ≠ [] := by
      rintro rfl
      exact nonempty (List.length_eq_zero_iff.mp digits.length.symm)
    obtain ⟨lead, whole, radixIs⟩ := fixupRadix_split t base
    rw [fixed] at whole radixIs
    simp only at whole radixIs
    refine ⟨lead ++ ds, rest, by rw [whole, split, List.append_assoc], is, radix, lead, ds, vs, ?_, rfl, some, digits, rfl⟩
    exact radixIs ds rest split some

end

theorem bodyOf_sign (signed : Bool) (s : List Char) :
    ∃ sign, s = sign ++ (bodyOf signed s).2 ∧ Sign signed sign (bodyOf signed s).1 := by
  unfold bodyOf
  split
  · rename_i both
    cases s with
    | nil => exact absurd both.2 (by decide)
    | cons c s => exact ⟨['-'], by rw [show c = '-' from both.2]; rfl, .minus both.1⟩
  · split
    · rename_i plus
      cases s with
      | nil => exact absurd plus (by decide)
      | cons c s => exact ⟨['+'], by rw [show c = '+' from plus]; rfl, .plus⟩
    · exact ⟨[], rfl, .none⟩

theorem denotes_iff {signed : Bool} {base : Nat} {s : List Char} {v : Int} : Denotes signed base s v ↔
    ∃ m, (∃ body newline, (bodyOf signed s).2 = body ++ newline ∧ (newline = [] ∨ newline = ['\n']) ∧ Magnitude base body m) ∧
      v = negated (bodyOf signed s).1 m := by
  constructor
  · rintro ⟨sign, negative, body, newline, m, rfl, signIs, is, newlineIs, rfl⟩
    have eq : bodyOf signed (sign ++ body ++ newline) = (negative, body ++ newline) := by
      cases signIs with
      | none =>
          obtain ⟨v, code⟩ := magnitude_head is
          have first : charAt ([] ++ body ++ newline) 0 = charAt body 0 := by
            cases body with
            | nil => exact absurd code (by rw [show digit (charAt [] 0) = none by decide]; simp)
            | cons c body => rfl
          have plain (c : Char) (none : digit c = none) : charAt ([] ++ body ++ newline) 0 ≠ c := by
            rintro rfl
            rw [first, code] at none
            cases none
          exact (if_neg fun both => plain '-' (by decide) both.2).trans (if_neg (plain '+' (by decide)))
      | plus => exact (if_neg fun both => absurd both.2 (by decide : ('+' : Char) ≠ '-')).trans (if_pos rfl)
      | minus may => exact if_pos ⟨may, rfl⟩
    rw [eq]
    exact ⟨m, ⟨body, newline, rfl, newlineIs, is⟩, rfl⟩
  · rintro ⟨m, ⟨body, newline, split, newlineIs, is⟩, rfl⟩
    obtain ⟨sign, whole, signIs⟩ := bodyOf_sign signed s
    refine ⟨sign, _, body, newline, m, ?_, signIs, is, newlineIs, rfl⟩
    rw [List.append_assoc, ← split]
    exact whole

theorem body_noNul (signed : Bool) {s : List Char} (noNul : nul ∉ s) : nul ∉ (bodyOf signed s).2 := by
  unfold bodyOf
  split
  · exact fun member => noNul (List.mem_of_mem_drop member)
  · split
    · exact fun member => noNul (List.mem_of_mem_drop member)
    · exact noNul

/-- Digits that leave the word leave it in the whole string. -/
theorem exceeds_of_run {signed : Bool} {base radix : Nat} {s t' ds rest : List Char} {vs : List Nat}
    (fixed : fixupRadix (bodyOf signed s).2 base = (t', radix)) (run : Run radix t' ds rest vs)
    (out : 2 ^ 64 ≤ value radix vs) : Exceeds signed base s := by
  obtain ⟨sign, whole, signIs⟩ := bodyOf_sign signed s
  have some : ds ≠ [] := by
    rintro rfl
    rw [List.length_eq_zero_iff.mp run.digits.length.symm] at out
    exact absurd out (by simp [value])
  obtain ⟨lead, split, radixIs⟩ := fixupRadix_split (bodyOf signed s).2 base
  rw [fixed] at split radixIs
  refine ⟨sign, _, lead, ds, rest, vs, radix, ?_, signIs, radixIs ds rest run.split some, ?_, out⟩
  · rw [List.append_assoc, List.append_assoc, ← run.split, ← split]
    exact whole
  · exact ⟨rfl, run.digits, run.stops⟩

/-! ## The parser -/

/-- The test for the end of a string. -/
theorem ends_iff {s : List Char} (noNul : nul ∉ s) :
    charAt (if charAt s 0 = '\n' then s.drop 1 else s) 0 = nul ↔ s = [] ∨ s = ['\n'] := by
  have first (c : Char) (l : List Char) (member : c ∈ s) : charAt (c :: l) 0 ≠ nul := fun is => noNul (is ▸ member)
  cases s with
  | nil => exact ⟨fun _ => .inl rfl, fun _ => rfl⟩
  | cons c s =>
      by_cases newline : c = '\n'
      · subst newline
        rw [if_pos (show charAt ('\n' :: s) 0 = '\n' from rfl), List.drop_one, List.tail_cons]
        cases s with
        | nil => exact ⟨fun _ => .inr rfl, fun _ => rfl⟩
        | cons d s =>
            refine ⟨fun is => absurd is (first d s (List.mem_cons_of_mem _ List.mem_cons_self)), ?_⟩
            rintro (is | is) <;> simp at is
      · rw [if_neg (show charAt (c :: s) 0 ≠ '\n' from newline)]
        refine ⟨fun is => absurd is (first c s List.mem_cons_self), ?_⟩
        rintro (is | is)
        · cases is
        · exact absurd (List.cons.inj is).1 newline

/-- The bases that the conversions are called with. -/
def ValidBase (base : Nat) : Prop := base = 0 ∨ 2 ≤ base ∧ base ≤ 16

theorem ValidBase.radix {base : Nat} (valid : ValidBase base) (t : List Char) :
    2 ≤ (fixupRadix t base).2 ∧ (fixupRadix t base).2 ≤ 16 := by
  have detected : 2 ≤ detectBase t base ∧ detectBase t base ≤ 16 := by
    unfold detectBase
    rcases valid with rfl | ⟨low, high⟩
    · rw [if_pos rfl]
      split
      · split <;> decide
      · decide
    · rw [if_neg (by omega)]
      exact ⟨low, high⟩
  unfold fixupRadix
  simp only
  split <;> exact detected

section

variable {base radix : Nat} {t t' ds rest : List Char} {vs : List Nat} (valid : ValidBase base)
  (fixed : fixupRadix t base = (t', radix)) (run : Run radix t' ds rest vs)

include valid fixed run

/-- The conversion of a string with a run that the counter can hold. -/
theorem kstrtoullCore_short (noNul : nul ∉ t) (short : vs.length < 2 ^ 31) (res : Int) : kstrtoullCore t base res =
    if 2 ^ 64 ≤ value radix vs then (eRange, res)
    else if vs ≠ [] ∧ (rest = [] ∨ rest = ['\n']) then (0, (value radix vs : Int)) else (eInval, res) := by
  have bounds := valid.radix t
  rw [fixed] at bounds
  have low : 1 ≤ radix := by omega
  unfold kstrtoullCore
  simp only [fixed, parseInteger, parseLoop_run run]
  by_cases out : 2 ^ 64 ≤ value radix vs
  · have rv := @parseDigits_overflow radix low bounds.2 vs 0 0 run.digits.lt (by decide) (by omega) out
    have marked : (parseDigits radix vs 0 0).1 &&& kstrtoxOverflow ≠ 0 := by
      have bit := Nat.two_pow_add_eq_or_of_lt short 1
      rw [Nat.mul_one] at bit
      rw [rv, Nat.zero_add, kstrtoxOverflow, Nat.add_comm, bit, Nat.and_or_distrib_right, Nat.and_self]
      intro zero
      exact absurd (Nat.or_eq_zero_iff.mp zero).1 (by decide)
    rw [if_pos out, if_pos marked]
  · have rv := @parseDigits_fits radix low bounds.2 vs 0 0 run.digits.lt (by decide) (Nat.not_le.mp out)
    have count : u32 (0 + vs.length) = vs.length := by
      rw [Nat.zero_add]
      exact u32_of_lt (by omega)
    rw [count] at rv
    have clear : vs.length &&& kstrtoxOverflow = 0 := by
      rw [kstrtoxOverflow, Nat.and_two_pow, Nat.testBit_lt_two_pow short]
      rfl
    rw [if_neg out, rv]
    simp only [clear, ne_eq, not_true_eq_false, if_false]
    by_cases none : vs = []
    · rw [if_pos (by rw [none]; rfl), if_neg (fun both => both.1 none)]
    · rw [if_neg (fun zero => none (List.length_eq_zero_iff.mp zero))]
      have left : t'.drop vs.length = rest := by
        rw [run.split, ← run.digits.length]
        exact List.drop_left
      have noNul' : nul ∉ rest := by
        obtain ⟨lead, split, -⟩ := fixupRadix_split t base
        rw [fixed] at split
        intro member
        rw [split, run.split] at noNul
        exact noNul (List.mem_append_right _ (List.mem_append_right _ member))
      rw [left]
      by_cases is : rest = [] ∨ rest = ['\n']
      · rw [if_neg (not_not.mpr ((ends_iff noNul').mpr is)), if_pos ⟨none, is⟩]
        rfl
      · rw [if_pos ((ends_iff noNul').not.mpr is), if_neg (fun both => is both.2)]

end

end Miracle.Strtox
