import Miracle.Bitmap.ParseHex
import Miracle.Bitmap.ListGrammar

/-! # Parsing of bitmaps

Both parsers end on every string and stay inside the words of the mask.  A list is parsed as its
grammar says as long as the numbers that are read are words; a mask is, exactly when the count of
its bits is noticed before it leaves an `int`.
-/

namespace Miracle.Bitmap

open Strtox Numeral

/-- A list is accepted as its grammar says, and then the mask is the union of its entries. -/
def ListParsed (nmaskbits : Nat) (items : List Item) (ret : Int) (maskp : List Word) : Prop :=
  (ret = 0 ↔ ∀ item ∈ items, item.Valid nmaskbits) ∧ (ret = 0 → ∀ i, bit maskp i = true ↔ ∃ item ∈ items, item.Denotes i)

/-- The chunks are accepted when they are words and the number fits, and then the mask is the number. -/
def MaskParsed (nmaskbits : Nat) (chunks : List Chunk) (ret : Int) (maskp : List Word) : Prop :=
  (ret = 0 ↔ (∀ chunk ∈ chunks, chunk.value < 2 ^ 32) ∧ number chunks < 2 ^ nmaskbits) ∧
    (ret = 0 → ∀ i, bit maskp i = (number chunks).testBit i)

/-- A chunk is refused for itself, or the count of the bits is. -/
def Noticed (nmaskbits : Nat) (chunks : List Chunk) : Prop :=
  (∃ chunk ∈ chunks, 2 ^ 32 ≤ chunk.value) ∨ Counted nmaskbits (fls (number chunks))

theorem numeral_line (n : Decimal) : ∀ c ∈ n.text, c ≠ '\n' := by
  have digits : ∀ d : Fin 10, Nat.digitChar d ≠ '\n' := by decide
  intro c member
  obtain ⟨d, -, rfl⟩ := List.mem_map.mp member
  exact digits d

/-- A list is one line. -/
theorem listText_line (items : List Item) : ∀ c ∈ listText items, c ≠ '\n' := by
  have item_line (item : Item) : ∀ c ∈ item.text, c ≠ '\n' := by
    cases item with
    | bit a => exact (numeral_line a)
    | range a b => exact List.forall_mem_append.mpr ⟨numeral_line a, List.forall_mem_cons.mpr ⟨by decide, numeral_line b⟩⟩
    | parts a b used group =>
        refine List.forall_mem_append.mpr ⟨numeral_line a, List.forall_mem_cons.mpr ⟨by decide, ?_⟩⟩
        refine List.forall_mem_append.mpr ⟨numeral_line b, List.forall_mem_cons.mpr ⟨by decide, ?_⟩⟩
        exact List.forall_mem_append.mpr ⟨numeral_line used, List.forall_mem_cons.mpr ⟨by decide, numeral_line group⟩⟩
  induction items with
  | nil => nofun
  | cons item items ih =>
      cases items with
      | nil =>
          have text : listText [item] = item.text := by simp [listText, List.intercalate]
          rw [text]
          exact item_line item
      | cons next items =>
          rw [listText_cons]
          exact List.forall_mem_append.mpr ⟨item_line item, List.forall_mem_cons.mpr ⟨by decide, ih⟩⟩

section

variable {nmaskbits : Nat} {maskp maskp' : List Word} {ret : Int} (int : nmaskbits < 2 ^ 31) (room : maskp.length = bitsToLongs nmaskbits)

include int room

theorem list_parsed {bp : CString} {items : List Item} (text : bp.chars = listText items) (line : bp.chars.length < 2 ^ 32)
    (fits : FitsWords nmaskbits items) (run : bitmapParselist bp maskp nmaskbits = some (ret, maskp')) :
    ListParsed nmaskbits items ret maskp' := by
  have whole : bp.chars.takeWhile (· ≠ '\n') = bp.chars := by
    rw [List.takeWhile_eq_self_iff, text]
    exact fun c member => decide_eq_true (listText_line items c member)
  rw [bitmapParselist, whole, u32_of_lt line, List.take_length, text] at run
  rw [text] at line
  exact bitmapParselistCore_spec int room line fits run

theorem mask_parsed {chunk : Chunk} {chunks : List Chunk} {tail : List Char} (pos : 0 < nmaskbits) (ends : Tail tail)
    (short : (maskText (chunk :: chunks) ++ tail).length < 2 ^ 32)
    (run : bitmapParse (maskText (chunk :: chunks) ++ tail) maskp nmaskbits = some (ret, maskp')) :
    MaskParsed nmaskbits (chunk :: chunks) ret maskp' ↔ Noticed nmaskbits (chunk :: chunks) := by
  obtain ⟨accepted, bits⟩ := bitmapParse_spec pos room ends short run
  have none : fls 0 ≤ nmaskbits := Nat.zero_le _
  have fits_iff : fls (number (chunk :: chunks)) ≤ nmaskbits ↔ number (chunk :: chunks) < 2 ^ nmaskbits := fls_le_iff
  have values : (∀ c ∈ (chunk :: chunks).map Chunk.value, c < 2 ^ 32) ↔ ∀ c ∈ chunk :: chunks, c.value < 2 ^ 32 := List.forall_mem_map
  constructor
  · rintro ⟨zero, -⟩
    by_contra missed
    obtain ⟨words, uncounted⟩ := not_or.mp missed
    push Not at words
    have fits := zero.mp (accepted.mpr (accepts_uncounted (values.mpr words) uncounted))
    exact uncounted (.inl ((fits_iff.mpr fits.2).trans_lt int))
  · intro noticed
    by_cases words : ∀ c ∈ chunk :: chunks, c.value < 2 ^ 32
    · have counted : Counted nmaskbits (fls (number (chunk :: chunks))) := by
        refine noticed.resolve_left ?_
        push Not
        exact words
      have fits := (accepted.trans (accepts_iff int (values.mpr words) counted none)).trans fits_iff
      refine ⟨fits.trans ⟨fun fits => ⟨words, fits⟩, And.right⟩, fun zero i => ?_⟩
      rw [bits zero]
      by_cases inside : i < 64 * maskp.length
      · rw [decide_eq_true inside, Bool.true_and]
      · have high : nmaskbits ≤ i := by
          by_contra low
          exact inside (room ▸ lt_bitsToLongs (Nat.not_le.mp low))
        have clear := Nat.testBit_lt_two_pow ((fits.mp zero).trans_le (Nat.pow_le_pow_right (by decide) high))
        rw [decide_eq_false inside, Bool.false_and, clear]
    · have refused : ret ≠ 0 := fun zero => words (values.mp (accepted.mp zero).words)
      exact ⟨iff_of_false refused fun both => words both.1, fun zero => absurd zero refused⟩

end

/-- Both parsers end and stay inside the mask; what they read is what the grammars say, for a list under a condition on its numbers
    and for a mask exactly under a condition on its length. -/
theorem parsers_exact {nmaskbits : Nat} {maskp : List Word} (pos : 0 < nmaskbits) (int : nmaskbits < 2 ^ 31)
    (room : maskp.length = bitsToLongs nmaskbits) :
    (∀ bp : CString, ∃ ret maskp', bitmapParselist bp maskp nmaskbits = some (ret, maskp') ∧ maskp'.length = maskp.length ∧
      ∀ items, bp.chars = listText items → bp.chars.length < 2 ^ 32 → FitsWords nmaskbits items → ListParsed nmaskbits items ret maskp') ∧
    ∀ buf : List Char, buf.length < 2 ^ 32 → ∃ ret maskp', bitmapParse buf maskp nmaskbits = some (ret, maskp') ∧
      maskp'.length = maskp.length ∧ ∀ chunk chunks tail, buf = maskText (chunk :: chunks) ++ tail → Tail tail →
        (MaskParsed nmaskbits (chunk :: chunks) ret maskp' ↔ Noticed nmaskbits (chunk :: chunks)) := by
  refine ⟨fun bp => ?_, fun buf short => ?_⟩
  · obtain ⟨ret, maskp', run, length⟩ := bitmapParselistCore_total ((bp.chars.takeWhile (· ≠ '\n')).take
      (u32 (bp.chars.takeWhile (· ≠ '\n')).length)) int room
    exact ⟨ret, maskp', run, length, fun items text line fits => list_parsed int room text line fits run⟩
  · obtain ⟨ret, maskp', run, length⟩ := bitmapParse_total buf pos room
    refine ⟨ret, maskp', run, length, ?_⟩
    rintro chunk chunks tail rfl ends
    exact mask_parsed int room pos ends short run

/-! ## A list and a number that is too large -/

theorem FitsWords.single {nmaskbits : Nat} {item : Item} (words : item.Words) (steps : item.Steps) : FitsWords nmaskbits [item] := by
  intro done next rest split _
  obtain ⟨rfl, same⟩ | ⟨-, empty⟩ := List.singleton_eq_append_iff.mp split
  · obtain ⟨rfl, -⟩ := List.cons.inj same
    exact ⟨words, fun _ => steps⟩
  · exact absurd empty (List.cons_ne_nil _ _)

theorem parts_parsed : ∃ ret maskp', bitmapParselist ⟨"0-7:2/4".toList, by decide⟩ [0] 8 = some (ret, maskp') ∧
    ListParsed 8 [.parts ⟨[0], by decide⟩ ⟨[7], by decide⟩ ⟨[2], by decide⟩ ⟨[4], by decide⟩] ret maskp' := by
  have exact := (@parsers_exact 8 [0] (by decide) (by decide) (by decide)).1 ⟨"0-7:2/4".toList, by decide⟩
  obtain ⟨ret, maskp', run, -, parsed⟩ := exact
  refine ⟨ret, maskp', run, parsed _ (by decide) (by decide) (FitsWords.single ?_ ?_)⟩
  · exact ⟨by decide, by decide⟩
  · exact .inr (by decide)

/-- `4294967296` is read as zero. -/
theorem wrapped_number_accepted : ¬ ∀ (nmaskbits : Nat) (maskp : List Word) (bp : CString) (items : List Item),
    0 < nmaskbits → nmaskbits < 2 ^ 31 → maskp.length = bitsToLongs nmaskbits → bp.chars = listText items →
      ∃ ret maskp', bitmapParselist bp maskp nmaskbits = some (ret, maskp') ∧ ListParsed nmaskbits items ret maskp' := by
  intro claim
  obtain ⟨ret, maskp', run, zero, -⟩ := claim 8 [0] ⟨"4294967296".toList, by decide⟩ [.bit ⟨[4, 2, 9, 4, 9, 6, 7, 2, 9, 6], by decide⟩]
    (by decide) (by decide) (by decide) (by decide)
  have accepted : bitmapParselist ⟨"4294967296".toList, by decide⟩ [0] 8 = some (0, [1]) := by decide +kernel
  cases accepted.symm.trans run
  have valid : 4294967296 < 8 := zero.mp rfl _ (List.mem_singleton_self _)
  exact absurd valid (by decide)

end Miracle.Bitmap
