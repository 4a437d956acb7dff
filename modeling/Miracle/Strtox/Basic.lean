import Miracle.Lib.Word
import Miracle.Lib.Numeral

/-! # Strings to integers

The conversions of `kstrtox.c`.  A string is the list of its characters before the terminator.
The parser works with words; the conversions return integers of their types, as a pair of the
return value and of what is behind the pointer afterwards.
-/

namespace Miracle.Strtox

def nul : Char := '\x00'

/-- A string in memory. -/
structure CString where
  chars : List Char
  noNul : nul ∉ chars

/-- `s[i]`, for an `i` up to the terminator. -/
def charAt (s : List Char) (i : Nat) : Char := s.getD i nul

def eInval : Int := -22

def eRange : Int := -34

/-! ## Characters -/

/-- `_tolower`, as a code. -/
def tolower (c : Char) : Nat := c.toNat ||| 0x20

def isdigit (c : Char) : Bool := '0' ≤ c ∧ c ≤ '9'

def isspace (c : Char) : Bool := (9 ≤ c.toNat ∧ c.toNat ≤ 13) ∨ c.toNat = 32 ∨ c.toNat = 160

def isxdigit (c : Char) : Bool := isdigit c ∨ ('A' ≤ c ∧ c ≤ 'F') ∨ ('a' ≤ c ∧ c ≤ 'f')

/-! ## Integers -/

/-- Reduction of a value to the range of an `s64`. -/
def s64 (n : Int) : Int := n.bmod (2 ^ 64)

def kstrtoxOverflow : Nat := 2 ^ 31

/-- The base that the start of a string asks for when none is given. -/
def detectBase (s : List Char) (base : Nat) : Nat :=
  if base = 0 then
    if charAt s 0 = '0' then
      if tolower (charAt s 1) = 'x'.toNat ∧ isxdigit (charAt s 2) then 16 else 8
    else 10
  else base

/-- `_parse_integer_fixup_radix`. -/
def fixupRadix (s : List Char) (base : Nat) : List Char × Nat :=
  let base := detectBase s base
  if base = 16 ∧ charAt s 0 = '0' ∧ tolower (charAt s 1) = 'x'.toNat then (s.drop 2, base) else (s, base)

/-- The value of a character in `_parse_integer`, for any base. -/
def digitVal (c : Char) : Option Nat :=
  let lc := tolower c
  if '0'.toNat ≤ c.toNat ∧ c.toNat ≤ '9'.toNat then some (c.toNat - '0'.toNat)
  else if 'a'.toNat ≤ lc ∧ lc ≤ 'f'.toNat then some (lc - 'a'.toNat + 10)
  else none

/-- The loop of `_parse_integer`. -/
def parseLoop (base : Nat) : List Char → Nat → Nat → Nat × Nat
  | [], rv, res => (rv, res)
  | c :: s, rv, res =>
      match digitVal c with
      | none => (rv, res)
      | some val =>
          if val ≥ base then (rv, res)
          else
            let rv :=
              if res &&& (2 ^ 64 - 2 ^ 60) ≠ 0 ∧ res > (2 ^ 64 - 1 - val) / base then rv ||| kstrtoxOverflow else rv
            parseLoop base s (u32 (rv + 1)) (u64 (res * base + val))

/-- `_parse_integer`: the characters consumed, with the overflow bit, and the value. -/
def parseInteger (s : List Char) (base : Nat) : Nat × Nat := parseLoop base s 0 0

/-! ## Conversions -/

/-- `_kstrtoull`. -/
def kstrtoullCore (s : List Char) (base : Nat) (res : Int) : Int × Int :=
  let (s, base) := fixupRadix s base
  let (rv, value) := parseInteger s base
  if rv &&& kstrtoxOverflow ≠ 0 then (eRange, res)
  else if rv = 0 then (eInval, res)
  else
    let s := s.drop rv
    let s := if charAt s 0 = '\n' then s.drop 1 else s
    if charAt s 0 ≠ nul then (eInval, res) else (0, value)

def kstrtoull (s : List Char) (base : Nat) (res : Int) : Int × Int :=
  let s := if charAt s 0 = '+' then s.drop 1 else s
  kstrtoullCore s base res

def kstrtoll (s : List Char) (base : Nat) (res : Int) : Int × Int :=
  if charAt s 0 = '-' then
    let (rv, tmp) := kstrtoullCore (s.drop 1) base 0
    if rv < 0 then (rv, res)
    else if s64 (-tmp) > 0 then (eRange, res)
    else (0, s64 (-tmp))
  else
    let (rv, tmp) := kstrtoull s base 0
    if rv < 0 then (rv, res)
    else if s64 tmp < 0 then (eRange, res)
    else (0, s64 tmp)

/-- The shape of the conversions to narrower types: `cast` is the conversion of C to the type. -/
def narrow (wide : Int × Int) (cast : Int → Int) (res : Int) : Int × Int :=
  let (rv, tmp) := wide
  if rv < 0 then (rv, res) else if tmp ≠ cast tmp then (eRange, res) else (0, cast tmp)

/-- `_kstrtoul`. -/
def kstrtoulCore (s : List Char) (base : Nat) (res : Int) : Int × Int := narrow (kstrtoull s base 0) (· % 2 ^ 64) res

/-- `_kstrtol`. -/
def kstrtolCore (s : List Char) (base : Nat) (res : Int) : Int × Int := narrow (kstrtoll s base 0) s64 res

/-- The types `unsigned long` and `unsigned long long` have one size and one alignment. -/
def kstrtoul (s : List Char) (base : Nat) (res : Int) : Int × Int := kstrtoull s base res

def kstrtol (s : List Char) (base : Nat) (res : Int) : Int × Int := kstrtoll s base res

def kstrtouint (s : List Char) (base : Nat) (res : Int) : Int × Int := narrow (kstrtoull s base 0) (· % 2 ^ 32) res

def kstrtoint (s : List Char) (base : Nat) (res : Int) : Int × Int := narrow (kstrtoll s base 0) (·.bmod (2 ^ 32)) res

def kstrtou16 (s : List Char) (base : Nat) (res : Int) : Int × Int := narrow (kstrtoull s base 0) (· % 2 ^ 16) res

def kstrtos16 (s : List Char) (base : Nat) (res : Int) : Int × Int := narrow (kstrtoll s base 0) (·.bmod (2 ^ 16)) res

def kstrtou8 (s : List Char) (base : Nat) (res : Int) : Int × Int := narrow (kstrtoull s base 0) (· % 2 ^ 8) res

def kstrtos8 (s : List Char) (base : Nat) (res : Int) : Int × Int := narrow (kstrtoll s base 0) (·.bmod (2 ^ 8)) res

/-! ## The digits that are consumed

The parser consumes the longest run of digits.  Its value is right up to a multiple of the word,
and as long as fewer than `2 ^ 31` characters are consumed the overflow bit says whether the word
was left.
-/

open Numeral

/-- What a character counts for as a digit. -/
def digit (c : Char) : Option Nat :=
  if '0' ≤ c ∧ c ≤ '9' then some (c.toNat - '0'.toNat)
  else if 'a' ≤ c ∧ c ≤ 'f' then some (c.toNat - 'a'.toNat + 10)
  else if 'A' ≤ c ∧ c ≤ 'F' then some (c.toNat - 'A'.toNat + 10)
  else none

theorem char_le (a b : Char) : a ≤ b ↔ a.toNat ≤ b.toNat := Iff.rfl

/-- Folding the case maps no other character to a letter. -/
theorem digitVal_eq (c : Char) : digitVal c = digit c := by
  have low : ∀ n, n < 103 →
      (if 48 ≤ n ∧ n ≤ 57 then some (n - 48) else if 97 ≤ n ||| 32 ∧ n ||| 32 ≤ 102 then some ((n ||| 32) - 97 + 10) else none) =
      if 48 ≤ n ∧ n ≤ 57 then some (n - 48) else if 97 ≤ n ∧ n ≤ 102 then some (n - 97 + 10)
      else if 65 ≤ n ∧ n ≤ 70 then some (n - 65 + 10) else none := by decide
  by_cases small : c.toNat < 103
  · exact low c.toNat small
  · have folded : c.toNat ≤ tolower c := Nat.left_le_or
    have outside : ¬ (48 ≤ c.toNat ∧ c.toNat ≤ 57) := by omega
    have lower : ¬ (97 ≤ c.toNat ∧ c.toNat ≤ 102) := by omega
    have upper : ¬ (65 ≤ c.toNat ∧ c.toNat ≤ 70) := by omega
    have none : ¬ (97 ≤ tolower c ∧ tolower c ≤ 102) := by omega
    have code : digitVal c = Option.none := (if_neg outside).trans (if_neg none)
    have spec : digit c = Option.none := (if_neg outside).trans ((if_neg lower).trans (if_neg upper))
    rw [code, spec]

/-! ## Runs of digits -/

/-- The characters are digits of the base, with these values. -/
def Digits (base : Nat) (ds : List Char) (vs : List Nat) : Prop :=
  List.Forall₂ (fun c v => digit c = some v ∧ v < base) ds vs

/-- No digit follows. -/
def Stops (base : Nat) (s : List Char) : Prop := ∀ v, digit (charAt s 0) = some v → base ≤ v

/-- A run of digits that ends here. -/
structure Run (base : Nat) (s ds rest : List Char) (vs : List Nat) : Prop where
  split : s = ds ++ rest
  digits : Digits base ds vs
  stops : Stops base rest

theorem stops_nil (base : Nat) : Stops base [] := by
  intro v code
  have none : digit (charAt [] 0) = none := by decide
  rw [none] at code
  cases code

theorem exists_run (base : Nat) (s : List Char) : ∃ ds rest vs, Run base s ds rest vs := by
  induction s with
  | nil => exact ⟨[], [], [], rfl, .nil, stops_nil base⟩
  | cons c s ih =>
      by_cases next : ∃ v, digit c = some v ∧ v < base
      · obtain ⟨v, code, lt⟩ := next
        obtain ⟨ds, rest, vs, rfl, digits, stops⟩ := ih
        exact ⟨c :: ds, rest, v :: vs, rfl, .cons ⟨code, lt⟩ digits, stops⟩
      · refine ⟨[], c :: s, [], rfl, .nil, fun v code => ?_⟩
        by_contra lt
        exact next ⟨v, code, Nat.not_le.mp lt⟩

theorem Digits.lt {base : Nat} {ds : List Char} {vs : List Nat} (digits : Digits base ds vs) : ∀ v ∈ vs, v < base := by
  induction digits with
  | nil => nofun
  | cons here _ ih => exact List.forall_mem_cons.mpr ⟨here.2, ih⟩

theorem Run.unique {base : Nat} {s ds ds' rest rest' : List Char} {vs vs' : List Nat} (one : Run base s ds rest vs)
    (other : Run base s ds' rest' vs') : ds = ds' ∧ rest = rest' ∧ vs = vs' := by
  obtain ⟨split, digits, stops⟩ := one
  obtain ⟨split', digits', stops'⟩ := other
  induction digits generalizing s ds' vs' with
  | nil =>
      cases digits' with
      | nil => exact ⟨rfl, split.symm.trans split', rfl⟩
      | cons here _ =>
          rw [split, List.nil_append, List.cons_append] at split'
          rw [split'] at stops
          exact absurd here.2 (Nat.not_lt.mpr (stops _ here.1))
  | cons here digits ih =>
      cases digits' with
      | nil =>
          rw [split, List.nil_append, List.cons_append] at split'
          rw [← split'] at stops'
          exact absurd here.2 (Nat.not_lt.mpr (stops' _ here.1))
      | cons here' digits' =>
          rw [split, List.cons_append, List.cons_append] at split'
          obtain ⟨rfl, same⟩ := List.cons.inj split'
          obtain ⟨rfl, rest, rfl⟩ := ih rfl same digits'
          have value := here.1.symm.trans here'.1
          cases value
          exact ⟨rfl, rest, rfl⟩

/-! ## The loop -/

/-- The loop over the values of the digits. -/
def parseDigits (base : Nat) : List Nat → Nat → Nat → Nat × Nat
  | [], rv, res => (rv, res)
  | val :: vs, rv, res =>
      let rv := if res &&& (2 ^ 64 - 2 ^ 60) ≠ 0 ∧ res > (2 ^ 64 - 1 - val) / base then rv ||| kstrtoxOverflow else rv
      parseDigits base vs (u32 (rv + 1)) (u64 (res * base + val))

theorem parseLoop_run {base rv res : Nat} {s ds rest : List Char} {vs : List Nat} (run : Run base s ds rest vs) :
    parseLoop base s rv res = parseDigits base vs rv res := by
  obtain ⟨rfl, digits, stops⟩ := run
  induction digits generalizing rv res with
  | nil =>
      cases rest with
      | nil => rfl
      | cons c rest =>
          rw [List.nil_append, parseLoop, digitVal_eq]
          cases code : digit c with
          | none => rfl
          | some v => exact if_pos (stops v code)
  | cons here digits ih =>
      rw [List.cons_append, parseLoop, digitVal_eq, here.1]
      simp only
      rw [if_neg (Nat.not_le.mpr here.2), ih]
      rfl

theorem parseDigits_value {base : Nat} {vs : List Nat} {rv res : Nat} : (parseDigits base vs rv (u64 res)).2 = u64 (extend base res vs) := by
  induction vs generalizing rv res with
  | nil => rfl
  | cons v vs ih =>
      rw [parseDigits, extend_cons, ← ih]
      have same : u64 (u64 res * base + v) = u64 (res * base + v) := by
        simp only [u64, Nat.add_mod, Nat.mul_mod, Nat.mod_mod]
      rw [same]

/-- A bit that is set stays set. -/
theorem parseDigits_marked {base : Nat} {vs : List Nat} {n res : Nat} (short : n + vs.length < 2 ^ 31) :
    (parseDigits base vs (n + kstrtoxOverflow) res).1 = n + vs.length + kstrtoxOverflow := by
  induction vs generalizing n res with
  | nil => rfl
  | cons v vs ih =>
      rw [List.length_cons] at short
      have again : (n + kstrtoxOverflow) ||| kstrtoxOverflow = n + kstrtoxOverflow := by
        have bit := Nat.two_pow_add_eq_or_of_lt (by omega : n < 2 ^ 31) 1
        rw [Nat.mul_one] at bit
        rw [kstrtoxOverflow, Nat.add_comm, bit, Nat.or_right_comm, Nat.or_self]
      have marked : (if res &&& (2 ^ 64 - 2 ^ 60) ≠ 0 ∧ res > (2 ^ 64 - 1 - v) / base then n + kstrtoxOverflow ||| kstrtoxOverflow
          else n + kstrtoxOverflow) = n + kstrtoxOverflow := by
        rw [again, ite_self]
      rw [parseDigits]
      simp only [marked]
      have next : u32 (n + kstrtoxOverflow + 1) = n + 1 + kstrtoxOverflow := by
        simp only [u32, kstrtoxOverflow]
        omega
      rw [next, ih (by omega), List.length_cons]
      omega

section

variable {base : Nat} (low : 1 ≤ base) (high : base ≤ 16)

include low high

/-- The test finds exactly the steps that leave the word. -/
theorem overflow_iff {res val : Nat} (word : res < 2 ^ 64) (digit : val < base) :
    res &&& (2 ^ 64 - 2 ^ 60) ≠ 0 ∧ res > (2 ^ 64 - 1 - val) / base ↔ 2 ^ 64 ≤ res * base + val := by
  rw [and_highMask word (by decide), gt_iff_lt, Nat.div_lt_iff_lt_mul low]
  have most : res * base ≤ res * 16 := Nat.mul_le_mul_left res high
  constructor
  · rintro ⟨-, more⟩
    omega
  · intro more
    refine ⟨?_, by omega⟩
    omega

theorem parseDigits_fits {vs : List Nat} {rv res : Nat} (digits : ∀ v ∈ vs, v < base) (count : rv < 2 ^ 32)
    (fits : extend base res vs < 2 ^ 64) : parseDigits base vs rv res = (u32 (rv + vs.length), extend base res vs) := by
  induction vs generalizing rv res with
  | nil => exact Prod.ext (u32_of_lt count).symm rfl
  | cons v vs ih =>
      obtain ⟨lt, digits⟩ := List.forall_mem_cons.mp digits
      have small : res * base + v < 2 ^ 64 := (le_extend low).trans_lt fits
      have word : res < 2 ^ 64 := by
        have := Nat.le_mul_of_pos_right res low
        omega
      have quiet := (overflow_iff low high word lt).not.mpr (Nat.not_le.mpr small)
      rw [parseDigits]
      simp only [if_neg quiet]
      rw [u64_of_lt small, ih digits (u32_lt _) fits, extend_cons]
      congr 1
      simp only [u32, List.length_cons]
      omega

theorem parseDigits_overflow {vs : List Nat} {n res : Nat} (digits : ∀ v ∈ vs, v < base) (word : res < 2 ^ 64)
    (short : n + vs.length < 2 ^ 31) (out : 2 ^ 64 ≤ extend base res vs) :
    (parseDigits base vs n res).1 = n + vs.length + kstrtoxOverflow := by
  induction vs generalizing n res with
  | nil => exact absurd word (Nat.not_lt.mpr out)
  | cons v vs ih =>
      obtain ⟨lt, digits⟩ := List.forall_mem_cons.mp digits
      rw [List.length_cons] at short ⊢
      have found := overflow_iff low high word lt
      rw [parseDigits]
      by_cases now : 2 ^ 64 ≤ res * base + v
      · have bit := Nat.two_pow_add_eq_or_of_lt (by omega : n < 2 ^ 31) 1
        rw [Nat.mul_one] at bit
        have next : u32 ((n ||| kstrtoxOverflow) + 1) = n + 1 + kstrtoxOverflow := by
          rw [kstrtoxOverflow, Nat.or_comm, ← bit, u32]
          omega
        simp only [if_pos (found.mpr now), next]
        rw [parseDigits_marked (by omega)]
        omega
      · have small := Nat.not_le.mp now
        simp only [if_neg (found.not.mpr now)]
        have next : u32 (n + 1) = n + 1 := u32_of_lt (by omega)
        rw [next, u64_of_lt small, ih digits small (by omega) out]
        omega

end

end Miracle.Strtox
