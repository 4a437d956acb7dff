import Miracle.Bitmap.Inline

/-! # Bitmaps as lists of bits

Every primitive does to the list of the first bits what the list operation of its name does,
whatever is in the last word above them.
-/

namespace Miracle.Bitmap

/-! ## Lists of bits -/

theorem bits_length (ws : List Word) (nbits : Nat) : (bits ws nbits).length = nbits := by
  rw [bits, List.length_map, List.length_range]

theorem bits_entry (ws : List Word) (nbits i : Nat) : (bits ws nbits)[i]? = if i < nbits then some (bit ws i) else none := by
  rw [bits, List.getElem?_map]
  by_cases inside : i < nbits
  · rw [if_pos inside, List.getElem?_range inside, Option.map_some]
  · rw [if_neg inside, List.getElem?_eq_none (by rw [List.length_range]; omega), Option.map_none]

/-- A list that has the bits is the list of the bits. -/
theorem bits_eq {ws : List Word} {nbits : Nat} {l : List Bool} (length : l.length = nbits) (same : ∀ i < nbits, l[i]? = some (bit ws i)) :
    bits ws nbits = l := by
  refine List.ext_getElem? fun i => ?_
  rw [bits_entry]
  by_cases inside : i < nbits
  · rw [if_pos inside, same i inside]
  · rw [if_neg inside, List.getElem?_eq_none (by omega)]

/-- The first position from `offset` on with the value, or the length. -/
def IsNext (v : Bool) (l : List Bool) (offset r : Nat) : Prop :=
  IsLeast {i | offset ≤ i ∧ l[i]? = some v} r ∨ ((∀ i, offset ≤ i → l[i]? ≠ some v) ∧ r = l.length)

/-- The last set position, or the length. -/
def IsLast (l : List Bool) (r : Nat) : Prop := IsGreatest {i | l[i]? = some true} r ∨ (true ∉ l ∧ r = l.length)

/-- The aligned areas of clear positions. -/
def areas (l : List Bool) (start nr unit offset : Nat) : Set Nat :=
  {j | start ≤ j ∧ unit ∣ j + offset ∧ j + nr ≤ l.length ∧ ∀ i < nr, l[j + i]? = some false}

theorem isNext_findNext (ws : List Word) (v : Bool) (size offset : Nat) : IsNext v (bits ws size) offset (BitScan.findNext (bit ws) v size offset) := by
  obtain ⟨upper, lower, found, before⟩ := BitScan.findNext_spec (bit ws) v size offset
  by_cases less : BitScan.findNext (bit ws) v size offset < size
  · have reached : offset ≤ size := by
      by_contra past
      rw [BitScan.findNext_past (by omega)] at less
      exact lt_irrefl _ less
    have above := lower reached
    refine .inl ⟨⟨above, ?_⟩, fun i here => ?_⟩
    · rw [bits_entry, if_pos less, found less]
    · obtain ⟨from_, set⟩ := here
      by_contra early
      rw [bits_entry, if_pos (by omega), before i from_ (by omega)] at set
      exact absurd (Option.some.inj set) (by cases v <;> decide)
  · refine .inr ⟨fun i from_ set => ?_, by rw [bits_length]; omega⟩
    rw [bits_entry] at set
    split at set
    · rename_i inside
      rw [before i from_ (by omega)] at set
      exact absurd (Option.some.inj set) (by cases v <;> decide)
    · cases set

theorem isLast_findLastBit (ws : List Word) (size : Nat) : IsLast (bits ws size) (BitScan.findLastBit (bit ws) size) := by
  rcases BitScan.findLastBit_spec (bit ws) size with ⟨same, clear⟩ | ⟨less, set, clear⟩
  · refine .inr ⟨fun member => ?_, same.trans (bits_length ws size).symm⟩
    obtain ⟨i, here⟩ := List.mem_iff_getElem?.mp member
    rw [bits_entry] at here
    split at here
    · rename_i inside
      rw [clear i (Nat.zero_le i) inside] at here
      cases here
    · cases here
  · refine .inl ⟨by rw [Set.mem_ofPred_eq, bits_entry, if_pos less, set], fun i here => ?_⟩
    rw [Set.mem_ofPred_eq, bits_entry] at here
    split at here
    · rename_i inside
      by_contra later
      rw [clear i (by omega) inside] at here
      cases here
    · cases here

theorem areas_eq (ws : List Word) (size start nr unit offset : Nat) :
    areas (bits ws size) start nr unit offset = {j | IsArea (bit ws) size start nr unit offset j} := by
  ext j
  rw [areas, Set.mem_ofPred_eq, Set.mem_ofPred_eq, bits_length, IsArea]
  refine and_congr_right fun _ => and_congr_right fun _ => and_congr_right fun inside => ⟨fun clear i low high => ?_, fun clear i less => ?_⟩
  · have here := clear (i - j) (by omega)
    rw [Nat.add_sub_of_le low, bits_entry, if_pos (by omega)] at here
    exact Option.some.inj here
  · rw [bits_entry, if_pos (by omega), clear (j + i) (by omega) (by omega)]

/-! ## The primitives -/

/-- The shifts move the list; the right one is zero above the bits that count. -/
structure ShiftsMean : Prop where
  right : ∀ (src : Option (List Word)) (dst : List Word) (shift nbits : Nat), nbits < 2 ^ 32 → shift < nbits → bitsToLongs nbits ≤ dst.length →
    bitsToLongs nbits ≤ (operand src dst).length → ∃ dst', bitmapShiftRight src dst shift nbits = some dst' ∧ dst'.length = dst.length ∧
      bits dst' nbits = (bits (operand src dst) nbits).drop shift ++ List.replicate shift false ∧
      ∀ i, 64 * bitsToLongs nbits ≤ i → bit dst' i = bit dst i
  left : ∀ (src : Option (List Word)) (dst : List Word) (shift nbits : Nat), nbits < 2 ^ 32 → shift < nbits → bitsToLongs nbits ≤ dst.length →
    bitsToLongs nbits ≤ (operand src dst).length → ∃ dst', bitmapShiftLeftInto src dst shift nbits = some dst' ∧ dst'.length = dst.length ∧
      bits dst' nbits = List.replicate shift false ++ (bits (operand src dst) nbits).take (nbits - shift) ∧
      ∀ i, 64 * bitsToLongs nbits ≤ i → bit dst' i = bit dst i

/-- Setting and clearing replace a part of the list of all bits. -/
structure RangesMean : Prop where
  set : ∀ (ws : List Word) (start len : Nat), len < 2 ^ 31 → start + len < 2 ^ 32 → start + len ≤ 64 * ws.length →
    ∃ ws', bitmapSet ws start len = some ws' ∧ ws'.length = ws.length ∧ bits ws' (64 * ws.length) =
      (bits ws (64 * ws.length)).take start ++ List.replicate len true ++ (bits ws (64 * ws.length)).drop (start + len)
  clear : ∀ (ws : List Word) (start len : Nat), len < 2 ^ 31 → start + len < 2 ^ 32 → start + len ≤ 64 * ws.length →
    ∃ ws', bitmapClear ws start len = some ws' ∧ ws'.length = ws.length ∧ bits ws' (64 * ws.length) =
      (bits ws (64 * ws.length)).take start ++ List.replicate len false ++ (bits ws (64 * ws.length)).drop (start + len)

/-- The weight, which is an `int`, and the comparisons look at the lists only. -/
structure ComparisonsMean : Prop where
  weight : ∀ (ws : List Word) (nbits : Nat), nbits < 2 ^ 32 → nbits ≤ 64 * ws.length →
    bitmapWeight ws nbits = some (s32 ((bits ws nbits).count true)) ∧ (nbits < 2 ^ 31 → bitmapWeight ws nbits = some (((bits ws nbits).count true : Nat) : Int))
  subset : ∀ (ws vs : List Word) (nbits : Nat), nbits < 2 ^ 32 → nbits ≤ 64 * ws.length → nbits ≤ 64 * vs.length →
    bitmapSubset ws vs nbits = some (((bits ws nbits).zip (bits vs nbits)).all fun (x, y) => !x || y)
  intersects : ∀ (ws vs : List Word) (nbits : Nat), nbits < 2 ^ 32 → nbits ≤ 64 * ws.length → nbits ≤ 64 * vs.length →
    bitmapIntersects ws vs nbits = some (((bits ws nbits).zip (bits vs nbits)).any fun (x, y) => x && y)
  equal : ∀ (ws vs : List Word) (nbits : Nat), nbits < 2 ^ 32 → nbits ≤ 64 * ws.length → nbits ≤ 64 * vs.length →
    bitmapEqual ws vs nbits = some (decide (bits ws nbits = bits vs nbits))

/-- The searches find the first or the last position of the list, and the first area. -/
structure SearchesMean : Prop where
  next : ∀ (ws : List Word) (size offset : Nat), Addressable ws → size ≤ 64 * ws.length →
    ∃ r, findNextBit ws size offset = some r ∧ IsNext true (bits ws size) offset r
  nextZero : ∀ (ws : List Word) (size offset : Nat), Addressable ws → size ≤ 64 * ws.length →
    ∃ r, findNextZeroBit ws size offset = some r ∧ IsNext false (bits ws size) offset r
  first : ∀ (ws : List Word) (size : Nat), size ≤ 64 * ws.length → ∃ r, findFirstBit ws size = some r ∧ IsNext true (bits ws size) 0 r
  firstZero : ∀ (ws : List Word) (size : Nat), size ≤ 64 * ws.length → ∃ r, findFirstZeroBit ws size = some r ∧ IsNext false (bits ws size) 0 r
  last : ∀ (ws : List Word) (size : Nat), Addressable ws → size ≤ 64 * ws.length → ∃ r, findLastBit ws size = some r ∧ IsLast (bits ws size) r
  area : ∀ (ws : List Word) (size start nr k offset : Nat), Addressable ws → size ≤ 64 * ws.length → start ≤ size → 0 < nr → nr < 2 ^ 32 → k < 64 →
    offset < 2 ^ 64 → ∃ r, bitmapFindNextZeroAreaOff ws size start nr (2 ^ k - 1) offset = some r ∧
      (IsLeast (areas (bits ws size) start nr (2 ^ k) offset) r ∨ (areas (bits ws size) start nr (2 ^ k) offset = ∅ ∧ size < r))

/-- What the compiler knows about the numbers does not change the results in the bits that count. -/
structure FastPathsAgree : Prop where
  logic : ∀ (known : Bool) (dst src1 src2 : List Word) (nbits : Nat),
    Inline.bitmapAnd known dst src1 src2 nbits = bitmapAnd dst src1 src2 nbits ∧
    Inline.bitmapAndnot known dst src1 src2 nbits = bitmapAndnot dst src1 src2 nbits ∧
    Inline.bitmapOr known dst src1 src2 nbits = bitmapOr dst src1 src2 nbits ∧
    Inline.bitmapXor known dst src1 src2 nbits = bitmapXor dst src1 src2 nbits ∧
    Inline.bitmapComplement known dst src1 nbits = bitmapComplement dst src1 nbits ∧
    Inline.bitmapIntersects known src1 src2 nbits = bitmapIntersects src1 src2 nbits ∧
    Inline.bitmapSubset known src1 src2 nbits = bitmapSubset src1 src2 nbits ∧
    Inline.bitmapWeight known src1 nbits = bitmapWeight src1 nbits
  equal : ∀ (known tail : Bool) (ws vs : List Word) (nbits : Nat), nbits < 2 ^ 32 → nbits ≤ 64 * ws.length → nbits ≤ 64 * vs.length →
    Inline.bitmapEqual known tail ws vs nbits = bitmapEqual ws vs nbits
  empty : ∀ (known : Bool) (ws : List Word) (nbits : Nat), nbits < 2 ^ 32 → nbits ≤ 64 * ws.length →
    Inline.bitmapEmpty known ws nbits = Inline.bitmapEmpty false ws nbits
  full : ∀ (known : Bool) (ws : List Word) (nbits : Nat), nbits < 2 ^ 32 → nbits ≤ 64 * ws.length →
    Inline.bitmapFull known ws nbits = Inline.bitmapFull false ws nbits
  ranges : ∀ (known tails : Bool) (ws : List Word) (start len : Nat), start < 2 ^ 31 → len < 2 ^ 31 → start + len ≤ 64 * ws.length →
    Inline.bitmapSet known tails ws start len = bitmapSet ws start len ∧ Inline.bitmapClear known tails ws start len = bitmapClear ws start len
  right : ∀ (known : Bool) (src : Option (List Word)) (dst : List Word) (shift nbits : Nat), shift < nbits →
    Inline.bitmapShiftRight known src dst shift nbits = bitmapShiftRight src dst shift nbits
  left : ∀ (known : Bool) (src : Option (List Word)) (dst : List Word) (shift nbits : Nat), nbits < 2 ^ 32 → shift < nbits →
    bitsToLongs nbits ≤ dst.length → bitsToLongs nbits ≤ (operand src dst).length →
    ∃ dst₁ dst₂, Inline.bitmapShiftLeft known src dst shift nbits = some dst₁ ∧ bitmapShiftLeftInto src dst shift nbits = some dst₂ ∧
      bits dst₁ nbits = bits dst₂ nbits ∧ ∀ i, 64 * bitsToLongs nbits ≤ i → bit dst₁ i = bit dst₂ i

theorem shiftsMean : ShiftsMean where
  right src dst shift nbits small less room room' := by
    obtain ⟨dst', run, length, bits'⟩ := bitmapShiftRight_eq small less room room'
    refine ⟨dst', run, length, bits_eq ?_ fun i inside => ?_, fun i beyond => by rw [bits', if_neg (by omega)]⟩
    · rw [List.length_append, List.length_drop, bits_length, List.length_replicate]
      omega
    · rw [bits', if_pos (lt_bitsToLongs inside), List.getElem?_append, List.length_drop, bits_length, List.getElem?_drop, bits_entry, Nat.add_comm shift i]
      by_cases low : i < nbits - shift
      · rw [if_pos low, if_pos (by omega), decide_eq_true (by omega), Bool.true_and]
      · rw [if_neg low, List.getElem?_replicate_of_lt (by omega), decide_eq_false (by omega), Bool.false_and]
  left src dst shift nbits small less room room' := by
    obtain ⟨dst', run, length, bits'⟩ := bitmapShiftLeftInto_eq less room room'
    refine ⟨dst', run, length, bits_eq ?_ fun i inside => ?_, fun i beyond => by rw [bits', if_neg (by omega)]⟩
    · rw [List.length_append, List.length_take, bits_length, List.length_replicate]
      omega
    · rw [bits', if_pos (lt_bitsToLongs inside), List.getElem?_append, List.length_replicate]
      by_cases low : i < shift
      · rw [if_pos low, List.getElem?_replicate_of_lt low, decide_eq_false (by omega), Bool.false_and]
      · rw [if_neg low, List.getElem?_take_of_lt (by omega), bits_entry, if_pos (by omega), decide_eq_true (by omega), Bool.true_and]

/-- A list with a part replaced, when the bits are replaced there. -/
theorem bits_replace {ws ws' : List Word} {start len : Nat} {v : Bool} (room : start + len ≤ 64 * ws.length)
    (same : ∀ i, bit ws' i = if start ≤ i ∧ i < start + len then v else bit ws i) : bits ws' (64 * ws.length) =
      (bits ws (64 * ws.length)).take start ++ List.replicate len v ++ (bits ws (64 * ws.length)).drop (start + len) := by
  have front : ((bits ws (64 * ws.length)).take start).length = start := List.length_take_of_le (by rw [bits_length]; omega)
  refine bits_eq ?_ fun i inside => ?_
  · rw [List.length_append, List.length_append, front, List.length_replicate, List.length_drop, bits_length]
    omega
  · rw [same, List.getElem?_append, List.getElem?_append, List.length_append, front, List.length_replicate]
    by_cases before : i < start
    · rw [if_pos (by omega), if_pos before, List.getElem?_take_of_lt before, bits_entry, if_pos inside, if_neg (by omega)]
    · by_cases within : i < start + len
      · rw [if_pos within, if_neg before, List.getElem?_replicate_of_lt (by omega), if_pos ⟨by omega, within⟩]
      · rw [if_neg within, List.getElem?_drop, Nat.add_sub_of_le (by omega), bits_entry, if_pos inside, if_neg (by omega)]

theorem rangesMean : RangesMean where
  set ws start len int small room := by
    obtain ⟨ws', run, length, bits'⟩ := bitmapSet_eq int small room
    refine ⟨ws', run, length, bits_replace room fun i => ?_⟩
    rw [bits']
    split
    · rename_i inside
      rw [decide_eq_true inside, Bool.or_true]
    · rename_i outside
      rw [decide_eq_false outside, Bool.or_false]
  clear ws start len int small room := by
    obtain ⟨ws', run, length, bits'⟩ := bitmapClear_eq int small room
    refine ⟨ws', run, length, bits_replace room fun i => ?_⟩
    rw [bits']
    split
    · rename_i inside
      rw [decide_eq_true inside, Bool.not_true, Bool.and_false]
    · rename_i outside
      rw [decide_eq_false outside, Bool.not_false, Bool.and_true]

theorem zip_bits (ws vs : List Word) (nbits : Nat) : (bits ws nbits).zip (bits vs nbits) = (List.range nbits).map fun i => (bit ws i, bit vs i) := by
  exact List.zip_map'

theorem comparisonsMean : ComparisonsMean where
  weight ws nbits small room := by
    have counted := bitmapWeight_eq small room
    refine ⟨counted, fun int => counted.trans (congrArg some (Int.bmod_eq_of_le ?_ ?_))⟩
    · omega
    · have most := @List.count_le_length _ _ true (bits ws nbits)
      rw [bits_length] at most
      omega
  subset ws vs nbits small room room' := by
    rw [bitmapSubset_eq small room room', zip_bits]
    refine congrArg some (Bool.eq_iff_iff.mpr ?_)
    simp only [decide_eq_true_eq, List.all_eq_true, List.forall_mem_map, List.mem_range, Bool.or_eq_true, Bool.not_eq_true']
    refine forall₂_congr fun i less => ?_
    cases bit ws i <;> simp
  intersects ws vs nbits small room room' := by
    rw [bitmapIntersects_eq small room room', zip_bits]
    refine congrArg some (Bool.eq_iff_iff.mpr ?_)
    simp only [decide_eq_true_eq, List.any_map, List.any_eq_true, List.mem_range, Function.comp_apply]
  equal ws vs nbits small room room' := by
    rw [bitmapEqual_eq small room room']
    refine congrArg some (decide_eq_decide.mpr ?_)
    rw [bits, bits, List.map_inj_left]
    simp only [List.mem_range]

theorem searchesMean : SearchesMean where
  next ws size offset fits room := ⟨_, findNextBit_eq fits room, isNext_findNext ws true size offset⟩
  nextZero ws size offset fits room := ⟨_, findNextZeroBit_eq fits room, isNext_findNext ws false size offset⟩
  first ws size room := ⟨_, findFirstBit_eq room, isNext_findNext ws true size 0⟩
  firstZero ws size room := ⟨_, findFirstZeroBit_eq room, isNext_findNext ws false size 0⟩
  last ws size fits room := ⟨_, findLastBit_eq fits room, isLast_findLastBit ws size⟩
  area ws size start nr k offset fits room inside pos int le word := by
    obtain ⟨r, run, result⟩ := zeroArea_eq fits room pos int word le inside
    refine ⟨r, run, ?_⟩
    rw [areas_eq]
    rcases result with least | ⟨beyond, none⟩
    · exact .inl least
    · exact .inr ⟨Set.eq_empty_iff_forall_notMem.mpr none, beyond⟩

theorem fastPathsAgree : FastPathsAgree where
  logic known dst src1 src2 nbits := by
    refine ⟨?_, ?_, ?_, ?_, ?_, ?_, ?_, ?_⟩
    · unfold Inline.bitmapAnd
      split
      · exact oneMasked_eq _ dst src1 src2 ‹_›
      · rfl
    · unfold Inline.bitmapAndnot
      split
      · exact oneMasked_eq _ dst src1 src2 ‹_›
      · rfl
    · unfold Inline.bitmapOr
      split
      · exact oneWhole_eq _ dst src1 src2 ‹_›
      · rfl
    · unfold Inline.bitmapXor
      split
      · exact oneWhole_eq _ dst src1 src2 ‹_›
      · rfl
    · unfold Inline.bitmapComplement
      split
      · rw [bitmapComplement, oneWord_longs ‹_›, CountLoop.countUp_one]
      · rfl
    · unfold Inline.bitmapIntersects
      split
      · exact oneAny_eq (fun _ _ => rfl) src1 src2 ‹_›
      · rfl
    · unfold Inline.bitmapSubset
      split
      · exact congrArg (Option.map (!·)) (oneAny_eq (fun _ _ => rfl) src1 src2 ‹_›)
      · rfl
    · unfold Inline.bitmapWeight
      split
      · exact oneWeight_eq src1 ‹_›
      · rfl
  equal _ tail _ _ _ small room room' := inlineEqual_eq tail small room room'
  empty _ _ _ small room := (inlineEmpty_eq small room).trans (inlineEmpty_eq small room).symm
  full _ _ _ small room := (inlineFull_eq small room).trans (inlineFull_eq small room).symm
  ranges known tails _ _ _ int int' room := ⟨inlineSet_eq known tails int int' room, inlineClear_eq known tails int int' room⟩
  right known src dst shift nbits less := by
    unfold Inline.bitmapShiftRight
    split
    · exact oneRight_eq src dst less ‹_›
    · rfl
  left known src dst shift nbits small less room room' := by
    obtain ⟨dst₁, run₁, -, here₁, beyond₁⟩ := inlineLeft_eq small less room room'
    obtain ⟨dst₂, run₂, -, bits₂⟩ := bitmapShiftLeftInto_eq less room room'
    refine ⟨dst₁, dst₂, run₁, run₂, List.map_congr_left fun i member => ?_, fun i beyond => ?_⟩
    · have inside := List.mem_range.mp member
      rw [here₁ i inside, bits₂, if_pos (lt_bitsToLongs inside)]
    · rw [beyond₁ i beyond, bits₂, if_neg (by omega)]

/-- The primitives of bitmaps are what they say on the list of the first bits, and the fast paths agree with them. -/
theorem primitives_mean : ShiftsMean ∧ RangesMean ∧ ComparisonsMean ∧ SearchesMean ∧ FastPathsAgree :=
  ⟨shiftsMean, rangesMean, comparisonsMean, searchesMean, fastPathsAgree⟩

/-- An area without bits is at the start already, but it is looked for behind the set bits. -/
theorem empty_area_late : ¬ ∀ nr < 2 ^ 32, ∃ r, bitmapFindNextZeroAreaOff [1#64] 64 0 nr 0 0 = some r ∧
    (IsLeast (areas (bits [1#64] 64) 0 nr 1 0) r ∨ (areas (bits [1#64] 64) 0 nr 1 0 = ∅ ∧ 64 < r)) := by
  intro all
  obtain ⟨r, run, result⟩ := all 0 (by decide)
  have found : bitmapFindNextZeroAreaOff [1#64] 64 0 0 0 0 = some 1 := by decide +kernel
  obtain rfl : 1 = r := Option.some.inj (found.symm.trans run)
  have empty : 0 ∈ areas (bits [1#64] 64) 0 0 1 0 := ⟨le_rfl, Nat.one_dvd _, Nat.zero_le _, fun i less => absurd less (Nat.not_lt_zero i)⟩
  rcases result with least | ⟨-, beyond⟩
  · exact absurd (least.2 empty) (by decide)
  · exact absurd beyond (by decide)

end Miracle.Bitmap
