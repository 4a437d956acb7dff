import Miracle.Text.Unescape

/-! # Escapes written

`string_escape_mem` with the set of characters that limits it, what `string_unescape` makes of its
output, and `kstrdup_quotable`.
-/

namespace Miracle.Text

open Strtox Vsprintf Buffer
open Bitmap (hexToBin)

/-! ## The code -/

/-- `strchr(s, c)` finds a character; the terminator is one of them. -/
def strchr : List Char → Char → Bool
  | [], c => nul = c
  | d :: ds, c => d = c || strchr ds c

/-- What `string_escape_mem` writes for a character. -/
def escapeMemChar (flags : Escape) (only : Option CString) (c : Byte) : List Char :=
  match only with
  | none => escapeChar flags c
  | some only => if only.chars ≠ [] ∧ ¬strchr only.chars c.char then [c.char] else escapeChar flags c

/-- The loop of `string_escape_mem` over a buffer of `osz` characters. -/
def stringEscapeMem (src : List Byte) (mem : Nat → Char) (osz : Nat) (flags : Escape) (only : Option CString) : Int × (Nat → Char) :=
  let out := src.foldl (fun o c => emit (some osz) o (escapeMemChar flags only c)) ⟨0, mem⟩
  ((out.pos : Int).bmod (2 ^ 32), out.mem)

/-- `ESCAPE_HEX` -/
def escapeAllHex : Escape := ⟨false, false, false, false, false, true⟩

/-- The characters that `kstrdup_quotable` escapes. -/
def quotableEsc : CString := ⟨"\x0c\n\r\t\x0b\x07\x1b\\\"".toList, by decide⟩

/-- A string on the heap, the size that was asked for, and whether the second pass was another one. -/
structure Duplicate where
  mem : Nat → Char
  size : Nat
  warned : Bool

/-- `kstrdup_quotable`; `kmalloc` gives the contents of fresh memory. -/
def kstrdupQuotable (kmalloc : Nat → Option (Nat → Char)) (src : Option (List Byte)) : Option Duplicate := do
  let src ← src
  let dlen := (stringEscapeMem src (fun _ => nul) 0 escapeAllHex (some quotableEsc)).1 % 2 ^ 64
  let size := u64 (dlen.toNat + 1)
  let dst ← kmalloc size
  let (n, dst) := stringEscapeMem src dst dlen.toNat escapeAllHex (some quotableEsc)
  some ⟨Function.update dst dlen.toNat nul, size, n % 2 ^ 64 ≠ dlen⟩

/-! ## The whole output -/

section

variable {flags : Escape} {only : Option CString} {s : List Byte}

/-- The unbounded output. -/
def escapeText (flags : Escape) (only : Option CString) (s : List Byte) : List Char := s.flatMap (escapeMemChar flags only)

theorem escapeLoop (flags : Escape) (only : Option CString) (s : List Byte) (b : Bound) (o : Out) :
    s.foldl (fun o c => emit b o (escapeMemChar flags only c)) o = emit b o (escapeText flags only s) := by
  induction s generalizing o with
  | nil => rfl
  | cons c s ih => rw [List.foldl_cons, ih, escapeText, escapeText, List.flatMap_cons, emit_append]

/-- The buffer gets as much of the output as it has room for, and the length of all of it is returned. -/
theorem stringEscapeMem_spec (flags : Escape) (only : Option CString) (s : List Byte) (mem : Nat → Char) (osz : Nat) (short : (escapeText flags only s).length < 2 ^ 31) :
    (stringEscapeMem s mem osz flags only).1 = (escapeText flags only s).length ∧
      ∀ i, (stringEscapeMem s mem osz flags only).2 i = if i < osz then ((escapeText flags only s)[i]?).getD (mem i) else mem i := by
  have loop := escapeLoop flags only s (some osz) ⟨0, mem⟩
  unfold stringEscapeMem
  rw [loop]
  refine ⟨?_, fun i => ?_⟩
  · simp only [emit_pos, Nat.zero_add]
    exact Int.bmod_eq_of_le (by omega) (by omega)
  · simp [emit_mem, before]

/-! ## One character -/

/-- The escapes of a character. -/
inductive Escaped (flags : Escape) (c : Byte) : List Char → Prop where
  | space {t : Char} : flags.space = true → spaceTable.lookup t = some c.char → Escaped flags c ['\\', t]
  | special {t : Char} :
      flags.special = true → (t = '\\' ∨ t = 'a' ∨ t = 'e') → specialTable.lookup t = some c.char → Escaped flags c ['\\', t]
  | null : flags.null = true → c = 0 → Escaped flags c ['\\', '0']
  | octal : flags.octal = true → Escaped flags c (escapeOctal c)
  | hex : flags.hex = true → Escaped flags c (escapeHex c)

theorem escapeSpace_form {c : Byte} {t : List Char} (h : escapeSpace c = some t) :
    ∃ e, t = ['\\', e] ∧ spaceTable.lookup e = some c.char := by
  have all : ∀ c : Byte, (escapeSpace c).all fun t => t = ['\\', t.getD 1 nul] ∧ spaceTable.lookup (t.getD 1 nul) = some c.char := by
    decide +kernel
  have one := all c
  rw [h] at one
  simp only [Option.all_some, decide_eq_true_eq] at one
  exact ⟨_, one⟩

theorem escapeSpecial_form {c : Byte} {t : List Char} (h : escapeSpecial c = some t) :
    ∃ e, t = ['\\', e] ∧ (e = '\\' ∨ e = 'a' ∨ e = 'e') ∧ specialTable.lookup e = some c.char := by
  have all : ∀ c : Byte, (escapeSpecial c).all fun t => t = ['\\', t.getD 1 nul] ∧
      (t.getD 1 nul = '\\' ∨ t.getD 1 nul = 'a' ∨ t.getD 1 nul = 'e') ∧ specialTable.lookup (t.getD 1 nul) = some c.char := by
    decide +kernel
  have one := all c
  rw [h] at one
  simp only [Option.all_some, decide_eq_true_eq] at one
  exact ⟨_, one⟩

theorem escapeNull_form {c : Byte} {t : List Char} (h : escapeNull c = some t) : t = ['\\', '0'] ∧ c = 0 := by
  have all : ∀ c : Byte, (escapeNull c).all fun t => t = ['\\', '0'] ∧ c = 0 := by decide +kernel
  have one := all c
  rw [h] at one
  simpa using one

/-- The attempts to escape a character, one class after the other. -/
def escapeAttempts (flags : Escape) (c : Byte) : Option (List Char) :=
  (if flags.space then escapeSpace c else none) <|> (if flags.special then escapeSpecial c else none) <|>
    (if flags.null then escapeNull c else none) <|> (if flags.octal then some (escapeOctal c) else none) <|>
    (if flags.hex then some (escapeHex c) else none)

theorem escapeAttempts_escaped {c : Byte} {t : List Char} (h : escapeAttempts flags c = some t) : Escaped flags c t := by
  simp only [escapeAttempts, Option.orElse_eq_orElse, Option.orElse_eq_or, Option.or_eq_some_iff, Option.ite_none_right_eq_some] at h
  rcases h with ⟨on, h⟩ | ⟨-, ⟨on, h⟩ | ⟨-, ⟨on, h⟩ | ⟨-, ⟨on, h⟩ | ⟨-, on, h⟩⟩⟩⟩
  · obtain ⟨e, rfl, found⟩ := escapeSpace_form h
    exact .space on found
  · obtain ⟨e, rfl, which, found⟩ := escapeSpecial_form h
    exact .special on which found
  · obtain ⟨rfl, zero⟩ := escapeNull_form h
    exact .null on zero
  · cases h
    exact .octal on
  · cases h
    exact .hex on

theorem escapeChar_form (c : Byte) : escapeChar flags c = [c.char] ∨ Escaped flags c (escapeChar flags c) := by
  have same : escapeChar flags c = if flags.np ∧ isprint c then [c.char] else (escapeAttempts flags c).getD [c.char] := rfl
  rw [same]
  split
  · exact .inl rfl
  · cases found : escapeAttempts flags c with
    | none => exact .inl rfl
    | some t => exact .inr (escapeAttempts_escaped found)

theorem escapeMemChar_form (flags : Escape) (only : Option CString) (c : Byte) : escapeMemChar flags only c = [c.char] ∨ Escaped flags c (escapeMemChar flags only c) := by
  unfold escapeMemChar
  split
  · exact escapeChar_form c
  · split
    · exact .inl rfl
    · exact escapeChar_form c

/-- The digits of an octal escape. -/
theorem escapeOctal_digits (c : Byte) : ∃ d₁ d₂ d₃ : Char, escapeOctal c = ['\\', d₁, d₂, d₃] ∧
    (isodigit d₁ = true ∧ isodigit d₂ = true ∧ isodigit d₃ = true) ∧ 8 * octalValue d₁ + octalValue d₂ < 32 ∧
      Char.ofNat (8 * (8 * octalValue d₁ + octalValue d₂) + octalValue d₃) = c.char := by
  have all : ∀ c : Byte, let t := escapeOctal c
      (isodigit (t.getD 1 nul) = true ∧ isodigit (t.getD 2 nul) = true ∧ isodigit (t.getD 3 nul) = true) ∧
        8 * octalValue (t.getD 1 nul) + octalValue (t.getD 2 nul) < 32 ∧
        Char.ofNat (8 * (8 * octalValue (t.getD 1 nul) + octalValue (t.getD 2 nul)) + octalValue (t.getD 3 nul)) = c.char := by
    decide +kernel
  exact ⟨_, _, _, rfl, all c⟩

theorem escapeHex_digits (c : Byte) : ∃ d₁ d₂ : Char, escapeHex c = ['\\', 'x', d₁, d₂] ∧
    (isxdigit d₁ = true ∧ isxdigit d₂ = true) ∧ Char.ofNat (16 * (hexToBin d₁).toNat + (hexToBin d₂).toNat) = c.char := by
  have all : ∀ c : Byte, let t := escapeHex c
      (isxdigit (t.getD 2 nul) = true ∧ isxdigit (t.getD 3 nul) = true) ∧
        Char.ofNat (16 * (hexToBin (t.getD 2 nul)).toNat + (hexToBin (t.getD 3 nul)).toNat) = c.char := by
    decide +kernel
  exact ⟨_, _, rfl, all c⟩

/-- The unescaping knows the classes that were escaped. -/
structure Readable (flags : Escape) (u : Unescape) : Prop where
  space : flags.space = true → u.space = true
  special : flags.special = true → u.special = true
  null : flags.null = true → u.octal = true
  octal : flags.octal = true → u.octal = true
  hex : flags.hex = true → u.hex = true

variable {u : Unescape} {rest : List Char}

theorem decodeOne_space {t e : Char} (on : u.space = true) (found : spaceTable.lookup t = some e) :
    decodeOne u (t :: rest) = some (e, 1) := by
  simp [decodeOne, on, decodeOf, found]

theorem decodeOne_special {t e : Char} (on : u.special = true) (which : t = '\\' ∨ t = 'a' ∨ t = 'e')
    (found : specialTable.lookup t = some e) : decodeOne u (t :: rest) = some (e, 1) := by
  have plain : spaceTable.lookup t = none ∧ isodigit t = false ∧ t ≠ 'x' := by
    rcases which with same | same | same <;> subst same <;> decide
  obtain ⟨noSpace, noDigit, noHex⟩ := plain
  have hex : decodeHex (t :: rest) = none := by
    cases rest with
    | nil => rfl
    | cons a ds => exact if_neg fun start => noHex start.1
  simp [decodeOne, on, decodeOf, found, noSpace, decodeOctal, noDigit, hex]

theorem decodeOne_octal {d : Char} {ds : List Char} {e : Char} {k : Nat} (on : u.octal = true) (digit : isodigit d = true)
    (dec : decodeOctal (d :: ds) = some (e, k)) : decodeOne u (d :: ds) = some (e, k) := by
  have letters : ∀ x ∈ spaceTable, isodigit x.1 = false := by decide
  have noSpace : spaceTable.lookup d = none := by
    rw [List.lookup_eq_none_iff]
    intro x mem
    have no := letters x mem
    rw [bne_iff_ne]
    rintro rfl
    rw [digit] at no
    cases no
  simp [decodeOne, on, decodeOf, noSpace, dec]

theorem decodeOne_hex {ds : List Char} {e : Char} {k : Nat} (on : u.hex = true) (dec : decodeHex ('x' :: ds) = some (e, k)) :
    decodeOne u ('x' :: ds) = some (e, k) := by
  have noSpace : spaceTable.lookup 'x' = none := by decide
  have noDigit : isodigit 'x' = false := by decide
  simp [decodeOne, on, decodeOf, noSpace, decodeOctal, noDigit, dec]

/-- An escape is read back as its character, when no digit follows a short octal escape. -/
theorem Escaped.decoded {c : Byte} {t : List Char} (escaped : Escaped flags c t) (readable : Readable flags u)
    (cut : t = ['\\', '0'] → ∀ d ∈ rest.head?, isodigit d = false) : Text.decoded u (t ++ rest) = c.char :: Text.decoded u rest := by
  cases escaped with
  | space on found => exact decoded_escape (decodeOne_space (readable.space on) found)
  | special on which found => exact decoded_escape (decodeOne_special (readable.special on) which found)
  | null on zero =>
      have digit : isodigit '0' = true := by decide
      have stop : octalRest 2 (octalValue '0') rest = (0, 0) := by
        cases rest with
        | nil => rfl
        | cons d ds => simp [octalRest, cut rfl d rfl, octalValue]
      have dec : decodeOctal ('0' :: rest) = some (c.char, 1) := by
        rw [decodeOctal, if_pos digit, stop, zero]
        rfl
      exact decoded_escape (decodeOne_octal (readable.null on) digit dec)
  | octal on =>
      obtain ⟨d₁, d₂, d₃, same, ⟨one, two, three⟩, small, value⟩ := escapeOctal_digits c
      have dec : decodeOctal (d₁ :: d₂ :: d₃ :: rest) = some (c.char, 3) := by
        have first : octalValue d₁ < 32 := (octalValue_lt one).1.trans (by decide)
        simp only [decodeOctal, octalRest, one, two, three, first, small, and_self, if_true, value]
      rw [same]
      exact decoded_escape (decodeOne_octal (readable.octal on) one dec)
  | hex on =>
      obtain ⟨d₁, d₂, same, ⟨one, two⟩, value⟩ := escapeHex_digits c
      have dec : decodeHex ('x' :: d₁ :: d₂ :: rest) = some (c.char, 3) := by
        simp [decodeHex, Option.filter, one, two, value]
      rw [same]
      exact decoded_escape (decodeOne_hex (readable.hex on) dec)

theorem Escaped.shape {c : Byte} {t : List Char} (escaped : Escaped flags c t) : ∃ d r, t = '\\' :: d :: r ∧ r.length ≤ 2 ∧ nul ∉ d :: r := by
  have digit {d : Char} (h : isodigit d = true ∨ isxdigit d = true) : nul ≠ d := by
    rintro rfl
    revert h
    decide
  cases escaped with
  | @space t on found =>
      refine ⟨_, _, rfl, by simp, fun mem => ?_⟩
      rw [← List.mem_singleton.mp mem] at found
      cases found
  | special on which found =>
      refine ⟨_, _, rfl, by simp, ?_⟩
      rcases which with rfl | rfl | rfl <;> decide
  | null on zero => exact ⟨_, _, rfl, by simp, by decide⟩
  | octal on =>
      obtain ⟨d₁, d₂, d₃, same, ⟨one, two, three⟩, -⟩ := escapeOctal_digits c
      exact ⟨_, _, same, by simp, by simp [digit (.inl one), digit (.inl two), digit (.inl three)]⟩
  | hex on =>
      obtain ⟨d₁, d₂, same, ⟨one, two⟩, -⟩ := escapeHex_digits c
      have x : nul ≠ 'x' := by decide
      exact ⟨_, _, same, by simp, by simp [x, digit (.inr one), digit (.inr two)]⟩

/-! ## The whole string -/

/-- No backslash and no terminator is written as it is, and no octal digit is behind a short octal escape. -/
structure Reversible (flags : Escape) (only : Option CString) (s : List Byte) : Prop where
  plain : ∀ c ∈ s, escapeMemChar flags only c = [c.char] → c.char ≠ '\\' ∧ c.char ≠ nul
  short : s.IsChain fun c d =>
    escapeMemChar flags only c = ['\\', '0'] → escapeMemChar flags only d = [d.char] → isodigit d.char = false

theorem Reversible.tail {c : Byte} (h : Reversible flags only (c :: s)) : Reversible flags only s :=
  ⟨fun d mem => h.plain d (List.mem_cons_of_mem _ mem), h.short.tail⟩

theorem Reversible.noDigit {c : Byte} (h : Reversible flags only (c :: s)) (null : escapeMemChar flags only c = ['\\', '0']) :
    ∀ d ∈ (escapeText flags only s).head?, isodigit d = false := by
  intro e first
  cases s with
  | nil => cases first
  | cons d s =>
      have digit := (List.isChain_cons_cons.mp h.short).1 null
      rw [escapeText, List.flatMap_cons] at first
      rcases escapeMemChar_form flags only d with raw | escaped
      · rw [raw] at first
        cases first
        exact digit raw
      · obtain ⟨b, r, start, -⟩ := escaped.shape
        rw [start] at first
        cases first
        rfl

theorem decoded_escapeText (readable : Readable flags u) (h : Reversible flags only s) :
    decoded u (escapeText flags only s) = s.map Byte.char := by
  induction s with
  | nil => rw [escapeText, List.flatMap_nil, decoded, List.map_nil]
  | cons c s ih =>
      have step : decoded u (escapeMemChar flags only c ++ escapeText flags only s) = c.char :: decoded u (escapeText flags only s) := by
        rcases escapeMemChar_form flags only c with raw | escaped
        · rw [raw]
          exact decoded_plain fun escape => (h.plain c List.mem_cons_self raw).1 escape.1
        · exact escaped.decoded readable h.noDigit
      rw [escapeText, List.flatMap_cons, ← escapeText, step, ih h.tail, List.map_cons]

theorem escapeText_length_le (flags : Escape) (only : Option CString) (s : List Byte) : (escapeText flags only s).length ≤ 4 * s.length := by
  induction s with
  | nil => exact Nat.le_refl _
  | cons c s ih =>
      have one : (escapeMemChar flags only c).length ≤ 4 := by
        rcases escapeMemChar_form flags only c with raw | escaped
        · simp [raw]
        · obtain ⟨b, r, start, short, -⟩ := escaped.shape
          rw [start, List.length_cons, List.length_cons]
          omega
      rw [escapeText, List.flatMap_cons, List.length_append, ← escapeText, List.length_cons]
      omega

theorem escapeText_noNul (h : Reversible flags only s) : nul ∉ escapeText flags only s := by
  intro mem
  obtain ⟨c, inside, mem⟩ := List.mem_flatMap.mp mem
  rcases escapeMemChar_form flags only c with raw | escaped
  · rw [raw, List.mem_singleton] at mem
    exact (h.plain c inside raw).2 mem.symm
  · obtain ⟨b, r, start, -, noNul⟩ := escaped.shape
    rw [start] at mem
    exact noNul ((List.mem_cons.mp mem).resolve_left (by decide))

theorem escapeText_unescapes (readable : Readable flags u) (h : Reversible flags only s) (short : 4 * s.length < 2 ^ 31) :
    Unescapes u 0 (escapeText flags only s) (s.map Byte.char) := by
  have bound := escapeText_length_le flags only s
  have whole : unescaped u 0 (escapeText flags only s) = s.map Byte.char := by
    rw [(unescaped_text u _ (by decide) (by omega)).2.2.2 (.inl rfl), decoded_escapeText readable h]
  rw [← whole]
  exact unescapes_unescaped (escapeText_noNul h) (by decide) (by omega)

end

/-- The output of `string_escape_mem` and the length that it returns, for a buffer of any size. -/
def Escapes (flags : Escape) (only : Option CString) (s : List Byte) (text : List Char) : Prop :=
  ∀ mem osz, (stringEscapeMem s mem osz flags only).1 = text.length ∧
    ∀ i, (stringEscapeMem s mem osz flags only).2 i = if i < osz then (text[i]?).getD (mem i) else mem i

/-- `ESCAPE_ANY` -/
def escapeAny : Escape := ⟨true, true, true, true, false, false⟩

/-- No character of the set is there as it is, and a backslash starts an escape of two hexadecimal digits. -/
inductive Quotable : List Char → Prop where
  | nil : Quotable []
  | plain {c : Char} {t : List Char} : strchr quotableEsc.chars c = false → Quotable t → Quotable (c :: t)
  | hex {a b : Char} {t : List Char} : isxdigit a = true → isxdigit b = true → Quotable t → Quotable ('\\' :: 'x' :: a :: b :: t)

/-- `UNESCAPE_HEX` -/
def unescapeOnlyHex : Unescape := ⟨false, false, true, false⟩

section

variable {s : List Byte}

theorem quotable_char (c : Byte) : escapeMemChar escapeAllHex (some quotableEsc) c =
    if strchr quotableEsc.chars c.char then escapeHex c else [c.char] := by
  have some_ : quotableEsc.chars ≠ [] := by decide
  have hex : escapeChar escapeAllHex c = escapeHex c := rfl
  rw [escapeMemChar, hex]
  by_cases found : strchr quotableEsc.chars c.char = true
  · rw [if_pos found, if_neg fun h => h.2 found]
  · rw [if_neg found, if_pos ⟨some_, found⟩]

theorem quotable_escapeText : Quotable (escapeText escapeAllHex (some quotableEsc) s) := by
  induction s with
  | nil => exact .nil
  | cons c s ih =>
      rw [escapeText, List.flatMap_cons, quotable_char]
      by_cases found : strchr quotableEsc.chars c.char = true
      · obtain ⟨a, b, same, ⟨one, two⟩, -⟩ := escapeHex_digits c
        rw [if_pos found, same]
        exact .hex one two ih
      · rw [if_neg found]
        exact .plain (Bool.eq_false_iff.mpr found) ih

theorem quotable_reversible : Reversible escapeAllHex (some quotableEsc) s := by
  have raw {c : Byte} (same : escapeMemChar escapeAllHex (some quotableEsc) c = [c.char]) : strchr quotableEsc.chars c.char = false := by
    rw [quotable_char] at same
    by_contra found
    rw [if_pos (Bool.eq_true_of_not_eq_false found)] at same
    exact List.cons_ne_nil _ _ (List.cons.inj same).2
  have noShort (c : Byte) : escapeMemChar escapeAllHex (some quotableEsc) c ≠ ['\\', '0'] := by
    rw [quotable_char]
    split
    · intro same
      exact List.cons_ne_nil _ _ (List.cons.inj (List.cons.inj same).2).2
    · intro same
      exact List.cons_ne_nil _ _ (List.cons.inj same).2.symm
  have other {c : Byte} {d : Char} (same : escapeMemChar escapeAllHex (some quotableEsc) c = [c.char])
      (listed : strchr quotableEsc.chars d = true) : c.char ≠ d := by
    rintro rfl
    exact Bool.false_ne_true ((raw same).symm.trans listed)
  refine ⟨fun c _ same => ⟨other same (by decide), other same (by decide)⟩, ?_⟩
  induction s with
  | nil => exact .nil
  | cons c s ih => exact .cons ih fun d _ null => absurd null (noShort c)

end

/-- The duplicate is `text` and its terminator in memory of that size, and the second pass agrees with the first. -/
def Duplicates (kmalloc : Nat → Option (Nat → Char)) (s : List Byte) (text : List Char) : Prop :=
  kstrdupQuotable kmalloc (some s) = (kmalloc (text.length + 1)).map fun fresh =>
    ⟨fun i => if i ≤ text.length then (text ++ [nul]).getD i nul else fresh i, text.length + 1, false⟩

end Miracle.Text
