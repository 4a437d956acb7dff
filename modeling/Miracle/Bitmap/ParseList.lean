import Miracle.Bitmap.Words
import Miracle.Strtox.Basic

/-! # Lists of bits

`bitmap_parselist` reads single bits, ranges, and parts of ranges that are taken from each group
of bits.  A run has no result when it leaves the words of the mask or does not end, and every
string has a result.
-/

namespace Miracle.Bitmap

open Strtox

/-- The local variables of `__bitmap_parselist` that outlive a character. -/
structure ListState where
  a : Nat
  b : Nat
  oldA : Nat
  oldB : Nat
  groupSize : Nat
  usedSize : Nat
  c : Char
  totaldigits : Nat
  atStart : Bool
  inRange : Bool
  inPartialRange : Bool

/-- The variables that are reset for the next bit or range. -/
def ListState.start (st : ListState) : ListState :=
  { st with atStart := true, inRange := false, inPartialRange := false, a := 0, b := 0 }

/-- The variables at the beginning. -/
def ListState.init : ListState := ⟨0, 0, 0, 0, 0, 0, nul, 0, true, false, false⟩

/-- The loop over the characters of one bit or range. -/
def nextItem (ndigits : Nat) : List Char → ListState → Except Int (List Char × ListState)
  | [], st => .ok ([], st)
  | c :: buf, st =>
      let oldC := st.c
      let st := { st with c := c }
      if isspace c then nextItem ndigits buf st
      else if c = nul ∨ c = ',' then .ok (buf, st)
      else if st.totaldigits ≠ ndigits ∧ isspace oldC then .error eInval
      else if c = '/' then
        nextItem ndigits buf { st with usedSize := st.a, atStart := true, inRange := false, a := 0, b := 0 }
      else if c = ':' then
        nextItem ndigits buf
          { st with oldA := st.a, oldB := st.b, atStart := true, inRange := false, inPartialRange := true, a := 0, b := 0 }
      else if c = '-' then
        if st.atStart ∨ st.inRange then .error eInval
        else nextItem ndigits buf { st with b := 0, inRange := true, atStart := true }
      else if ¬ isdigit c then .error eInval
      else
        let b := u32 (u32 (st.b * 10) + (c.toNat - '0'.toNat))
        nextItem ndigits buf
          { st with b := b, a := if st.inRange then st.a else b, atStart := false, totaldigits := u32 (st.totaldigits + 1) }

/-- The loop that sets the used bits of each group. -/
def setGroups (b usedSize groupSize : Nat) : Nat → Nat → List Word → Option (List Word)
  | 0, _, _ => none
  | fuel + 1, a, maskp =>
      if a ≤ b then
        let off := min (u32 (b - a + 1)) usedSize
        (bitmapSet maskp a off).bind fun maskp => setGroups b usedSize groupSize fuel (u32 (a + groupSize)) maskp
      else some maskp

/-- The range and its groups; a range without parts is one group. -/
def ListState.finish (st : ListState) : ListState :=
  if st.inPartialRange then { st with groupSize := st.a, a := st.oldA, b := st.oldB, oldA := 0, oldB := 0 }
  else { st with usedSize := u32 (2 ^ 32 + st.b + 1 - st.a), groupSize := u32 (2 ^ 32 + st.b + 1 - st.a) }

/-- What follows the characters of a bit or a range.  The value is not zero where the function returns. -/
def finishItem (nmaskbits : Nat) (st : ListState) (maskp : List Word) : Option (Int × ListState × List Word) :=
  let st := st.finish
  if st.atStart ∧ st.inRange then some (eInval, st, maskp)
  else if ¬ st.a ≤ st.b ∨ st.groupSize = 0 ∨ ¬ st.usedSize ≤ st.groupSize then some (eInval, st, maskp)
  else if st.b ≥ nmaskbits then some (eRange, st, maskp)
  else (setGroups st.b st.usedSize st.groupSize (st.b + 2) st.a maskp).map fun maskp => (0, st, maskp)

/-- The outer loop of `__bitmap_parselist`. -/
def parseItems (nmaskbits : Nat) : Nat → List Char → ListState → List Word → Option (Int × List Word)
  | 0, _, _, _ => none
  | fuel + 1, buf, st, maskp =>
      match nextItem st.totaldigits buf st.start with
      | .error ret => some (ret, maskp)
      | .ok (buf, read) =>
          let finished := if st.totaldigits = read.totaldigits then some (0, read, maskp) else finishItem nmaskbits read maskp
          finished.bind fun (ret, st, maskp) =>
            if ret ≠ 0 then some (ret, maskp)
            else if buf ≠ [] ∧ st.c = ',' then parseItems nmaskbits fuel buf st maskp
            else some (0, maskp)

/-- `__bitmap_parselist`, with the return value and the words of the mask. -/
def bitmapParselistCore (buf : List Char) (maskp : List Word) (nmaskbits : Nat) : Option (Int × List Word) :=
  (bitmapZero maskp nmaskbits).bind fun maskp => parseItems nmaskbits (buf.length + 1) buf .init maskp

/-- `bitmap_parselist`.  The length of the line goes through an `int`. -/
def bitmapParselist (bp : CString) (maskp : List Word) (nmaskbits : Nat) : Option (Int × List Word) :=
  let line := bp.chars.takeWhile (· ≠ '\n')
  bitmapParselistCore (line.take (u32 line.length)) maskp nmaskbits

/-! ## Every string has a result -/

/-- The numbers are words of their type. -/
structure ListState.Words (st : ListState) : Prop where
  a : st.a < 2 ^ 32
  b : st.b < 2 ^ 32
  oldA : st.oldA < 2 ^ 32
  oldB : st.oldB < 2 ^ 32

theorem ListState.Words.start {st : ListState} (small : st.Words) : st.start.Words :=
  ⟨Nat.two_pow_pos 32, Nat.two_pow_pos 32, small.oldA, small.oldB⟩

theorem nextItem_read {ndigits : Nat} {buf rest : List Char} {st st' : ListState} (small : st.Words)
    (read : nextItem ndigits buf st = .ok (rest, st')) : st'.Words ∧ (rest = [] ∨ rest.length < buf.length) := by
  induction buf generalizing st with
  | nil =>
      cases read
      exact ⟨small, .inl rfl⟩
  | cons c buf ih =>
      have step {st : ListState} (small : st.Words) (read : nextItem ndigits buf st = .ok (rest, st')) :
          st'.Words ∧ (rest = [] ∨ rest.length < (c :: buf).length) := by
        obtain ⟨small', short⟩ := ih small read
        exact ⟨small', short.imp_right Nat.lt_succ_of_lt⟩
      rw [nextItem] at read
      simp only at read
      split at read
      · refine step ?_ read
        exact ⟨small.a, small.b, small.oldA, small.oldB⟩
      split at read
      · cases read
        exact ⟨⟨small.a, small.b, small.oldA, small.oldB⟩, .inr (Nat.lt_succ_self _)⟩
      split at read
      · cases read
      split at read
      · refine step ?_ read
        exact ⟨Nat.two_pow_pos 32, Nat.two_pow_pos 32, small.oldA, small.oldB⟩
      split at read
      · refine step ?_ read
        exact ⟨Nat.two_pow_pos 32, Nat.two_pow_pos 32, small.a, small.b⟩
      split at read
      · split at read
        · cases read
        · refine step ?_ read
          exact ⟨small.a, Nat.two_pow_pos 32, small.oldA, small.oldB⟩
      split at read
      · cases read
      · refine step ?_ read
        refine ⟨?_, u32_lt _, small.oldA, small.oldB⟩
        split
        · exact small.a
        · exact u32_lt _

/-- A group of more than half of all numbers is stepped over once, or the steps go down. -/
theorem setGroups_total {b usedSize groupSize fuel a : Nat} {maskp : List Word} (high : b + 1 < 2 ^ 31) (room : b < 64 * maskp.length)
    (pos : 0 < groupSize) (word : groupSize < 2 ^ 32) (fueled : 0 < fuel)
    (enough : a ≤ b → if groupSize ≤ 2 ^ 31 then b + 2 ≤ a + fuel else a + 2 ≤ fuel) :
    ∃ maskp', setGroups b usedSize groupSize fuel a maskp = some maskp' ∧ maskp'.length = maskp.length ∧
      (usedSize = 0 → ∀ i, bit maskp' i = bit maskp i) := by
  induction fuel generalizing a maskp with
  | zero => exact absurd fueled (lt_irrefl 0)
  | succ fuel ih =>
      rw [setGroups]
      by_cases more : a ≤ b
      · rw [if_pos more]
        have left := enough more
        have size : u32 (b - a + 1) = b - a + 1 := u32_of_lt (by omega)
        have within : a + min (u32 (b - a + 1)) usedSize ≤ b + 1 := by omega
        obtain ⟨next, set, length, bits⟩ := @bitmapSet_spec maskp a (min (u32 (b - a + 1)) usedSize) (by omega) (by omega)
        have fueled : 0 < fuel := by split at left <;> omega
        have enough : u32 (a + groupSize) ≤ b → if groupSize ≤ 2 ^ 31 then b + 2 ≤ u32 (a + groupSize) + fuel else u32 (a + groupSize) + 2 ≤ fuel := by
          intro again
          simp only [u32] at again ⊢
          split at left
          · rename_i small
            rw [if_pos small]
            omega
          · rename_i large
            rw [if_neg large]
            omega
        obtain ⟨maskp', run, length', same⟩ := @ih (u32 (a + groupSize)) next (by omega) fueled enough
        refine ⟨maskp', ?_, length'.trans length, fun zero i => ?_⟩
        · simp only [set]
          exact run
        · have empty : ¬ (a ≤ i ∧ i < a + min (u32 (b - a + 1)) usedSize) := by omega
          rw [same zero, bits, decide_eq_false empty, Bool.or_false]
      · rw [if_neg more]
        exact ⟨maskp, rfl, rfl, fun _ _ => rfl⟩

theorem ListState.Words.finish {st : ListState} (small : st.Words) : st.finish.Words ∧ st.finish.groupSize < 2 ^ 32 := by
  unfold ListState.finish
  split
  · exact ⟨⟨small.oldA, small.oldB, Nat.two_pow_pos 32, Nat.two_pow_pos 32⟩, small.a⟩
  · exact ⟨⟨small.a, small.b, small.oldA, small.oldB⟩, u32_lt _⟩

theorem finishItem_total {nmaskbits : Nat} {st : ListState} {maskp : List Word} (small : st.Words) (int : nmaskbits < 2 ^ 31)
    (room : maskp.length = bitsToLongs nmaskbits) :
    ∃ ret st' maskp', finishItem nmaskbits st maskp = some (ret, st', maskp') ∧ st'.Words ∧ maskp'.length = maskp.length := by
  obtain ⟨small', group⟩ := small.finish
  unfold finishItem
  simp only
  split_ifs with unended invalid high
  · exact ⟨eInval, _, maskp, rfl, small', rfl⟩
  · exact ⟨eInval, _, maskp, rfl, small', rfl⟩
  · exact ⟨eRange, _, maskp, rfl, small', rfl⟩
  · push Not at invalid high
    have inside := lt_bitsToLongs high
    have enough : st.finish.a ≤ st.finish.b → if st.finish.groupSize ≤ 2 ^ 31 then st.finish.b + 2 ≤ st.finish.a + (st.finish.b + 2)
        else st.finish.a + 2 ≤ st.finish.b + 2 := by
      intro ordered
      split <;> omega
    obtain ⟨maskp', run, length, -⟩ := @setGroups_total _ st.finish.usedSize _ _ _ maskp (by omega) (room ▸ inside)
      (Nat.pos_of_ne_zero invalid.2.1) group (Nat.succ_pos _) enough
    exact ⟨0, st.finish, maskp', by rw [run]; rfl, small', length⟩

theorem parseItems_total {nmaskbits fuel : Nat} {buf : List Char} {st : ListState} {maskp : List Word} (small : st.Words)
    (int : nmaskbits < 2 ^ 31) (room : maskp.length = bitsToLongs nmaskbits) (enough : buf.length < fuel) :
    ∃ ret maskp', parseItems nmaskbits fuel buf st maskp = some (ret, maskp') ∧ maskp'.length = maskp.length := by
  induction fuel generalizing buf st maskp with
  | zero => exact absurd enough (Nat.not_lt_zero _)
  | succ fuel ih =>
      rw [parseItems]
      cases read : nextItem st.totaldigits buf st.start with
      | error ret => exact ⟨ret, maskp, rfl, rfl⟩
      | ok next =>
          obtain ⟨rest, st'⟩ := next
          obtain ⟨small', short⟩ := nextItem_read small.start read
          have finished : ∃ ret st'' maskp', (if st.totaldigits = st'.totaldigits then some (0, st', maskp) else finishItem nmaskbits st' maskp) =
              some (ret, st'', maskp') ∧ st''.Words ∧ maskp'.length = maskp.length := by
            split
            · exact ⟨0, st', maskp, rfl, small', rfl⟩
            · exact finishItem_total small' int room
          obtain ⟨ret, st'', maskp', finish, small'', length⟩ := finished
          simp only [finish, Option.bind_some]
          split_ifs with failed more
          · exact ⟨ret, maskp', rfl, length⟩
          · have shorter : rest.length < buf.length := short.resolve_left more.1
            obtain ⟨ret, last, run, same⟩ := @ih rest st'' maskp' small'' (length.trans room) (by omega)
            exact ⟨ret, last, run, same.trans length⟩
          · exact ⟨0, maskp', rfl, length⟩

/-- Every string is read to its end or to an error, and the words that hold the mask are enough for it. -/
theorem bitmapParselistCore_total {nmaskbits : Nat} (buf : List Char) {maskp : List Word} (int : nmaskbits < 2 ^ 31)
    (room : maskp.length = bitsToLongs nmaskbits) :
    ∃ ret maskp', bitmapParselistCore buf maskp nmaskbits = some (ret, maskp') ∧ maskp'.length = maskp.length := by
  have zero : (List.replicate maskp.length (0 : Word)).length = maskp.length := List.length_replicate
  have small : ListState.init.Words := ⟨Nat.two_pow_pos 32, Nat.two_pow_pos 32, Nat.two_pow_pos 32, Nat.two_pow_pos 32⟩
  obtain ⟨ret, maskp', run, length⟩ := parseItems_total small int (zero.trans room) (Nat.lt_succ_self buf.length)
  refine ⟨ret, maskp', ?_, length.trans zero⟩
  rw [bitmapParselistCore, bitmapZero_spec room]
  exact run

end Miracle.Bitmap
