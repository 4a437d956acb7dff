import Miracle.Bitmap.Shift

/-! # Setting and clearing ranges

`__bitmap_clear` is `__bitmap_set` on the inverted words.  A range of whole bytes can be filled by
`memset`, which works on the bytes of the words.
-/

namespace Miracle.Bitmap

open CountLoop

/-- The loop of `__bitmap_clear` and what follows it, on the words from `p` on. -/
def clearLoop (size : Nat) : List Word → Int → Int → Word → Option (List Word)
  | [], len, bitsToClear, _ => if len - bitsToClear ≥ 0 ∨ len ≠ 0 then none else some []
  | w :: p, len, bitsToClear, maskToClear =>
      if len - bitsToClear ≥ 0 then
        (clearLoop size p (len - bitsToClear) 64 (BitVec.allOnes 64)).map ((w &&& ~~~ maskToClear) :: ·)
      else if len ≠ 0 then some ((w &&& ~~~ (maskToClear &&& lastWordMask size)) :: p)
      else some (w :: p)

/-- `bitmap_clear`, which passes its length on to `__bitmap_clear` as an `int`. -/
def bitmapClear (map : List Word) (start nbits : Nat) : Option (List Word) :=
  let size := u32 (start + nbits)
  let bitsToClear : Int := 64 - (start % 64 : Nat)
  (clearLoop size (map.drop (start / 64)) (s32 nbits) bitsToClear (firstWordMask start)).map (map.take (start / 64) ++ ·)

/-- `*p = v` for a byte of the words, the lowest one first. -/
def storeByte (ws : List Word) (i : Nat) (v : BitVec 8) : Option (List Word) := do
  let w ← ws[i / 8]?
  store ws (i / 8) ((w &&& ~~~ ((0xff#8).setWidth 64 <<< (8 * (i % 8)))) ||| v.setWidth 64 <<< (8 * (i % 8)))

def byteAt (ws : List Word) (i : Nat) : Option (BitVec 8) := (ws[i / 8]?).map fun w : Word => (w >>> (8 * (i % 8))).setWidth 8

/-- `memset` from byte `p` on. -/
def memset (ws : List Word) (p n : Nat) (v : BitVec 8) : Option (List Word) := countUp (fun k ws => storeByte ws (p + k) v) n ws

/-- `memcmp(s, t, n) != 0`. -/
def memcmp (s t : List Word) (n : Nat) : Option Bool := search (fun k => do some ((← byteAt s k) != (← byteAt t k))) n

/-- Arrays with the same bits are the same. -/
theorem bits_ext {ws vs : List Word} (length : ws.length = vs.length) (same : ∀ i, bit ws i = bit vs i) : ws = vs := by
  refine List.ext_getElem length fun k inside inside' => BitVec.eq_of_getLsbD_eq fun t place => ?_
  have here := same (64 * k + t)
  rwa [bit_word ws k place, bit_word vs k place, List.getD_eq_getElem _ _ inside, List.getD_eq_getElem _ _ inside'] at here

/-! ## Ranges of bits -/

theorem clearLoop_not (size : Nat) (p : List Word) (len bitsToClear : Int) (mask : Word) :
    clearLoop size p len bitsToClear mask = (setLoop size (p.map (~~~ ·)) len bitsToClear mask).map (List.map (~~~ ·)) := by
  have word (w m : Word) : ~~~ (~~~ w ||| m) = w &&& ~~~ m := by rw [BitVec.not_or, BitVec.not_not]
  have back (p : List Word) : (p.map (~~~ ·)).map (~~~ ·) = p := by
    rw [List.map_map]
    exact (List.map_congr_left fun w _ => BitVec.not_not).trans (List.map_id _)
  induction p generalizing len bitsToClear mask with
  | nil =>
      rw [clearLoop, List.map_nil, setLoop]
      split <;> rfl
  | cons w p ih =>
      rw [clearLoop, List.map_cons, setLoop]
      split
      · rw [ih, Option.map_map, Option.map_map]
        refine congrArg (Option.map · _) (funext fun p' => ?_)
        simp only [Function.comp_apply, List.map_cons, word]
      · split
        · rw [Option.map_some, List.map_cons, word, back]
        · rw [Option.map_some, List.map_cons, back, BitVec.not_not]

theorem bit_not {ws : List Word} {i : Nat} (inside : i < 64 * ws.length) : bit (ws.map (~~~ ·)) i = !bit ws i := by
  have word : i / 64 < ws.length := by omega
  rw [bit, bit, List.getD_eq_getElem _ _ (by rw [List.length_map]; exact word), List.getD_eq_getElem _ _ word, List.getElem_map, BitVec.getLsbD_not,
    decide_eq_true (by omega), Bool.true_and]

theorem bitmapClear_not (ws : List Word) (start nbits : Nat) :
    bitmapClear ws start nbits = (bitmapSet (ws.map (~~~ ·)) start nbits).map (List.map (~~~ ·)) := by
  rw [bitmapClear, bitmapSet]
  simp only [clearLoop_not, List.map_drop, Option.map_map]
  refine congrArg (Option.map · _) (funext fun p' => ?_)
  have back : ((ws.take (start / 64)).map (~~~ ·)).map (~~~ ·) = ws.take (start / 64) := by
    rw [List.map_map]
    exact (List.map_congr_left fun w _ => BitVec.not_not).trans (List.map_id _)
  rw [Function.comp_apply, Function.comp_apply, List.map_append, ← List.map_take, back]

theorem bitmapClear_eq {ws : List Word} {start nbits : Nat} (int : nbits < 2 ^ 31) (small : start + nbits < 2 ^ 32) (room : start + nbits ≤ 64 * ws.length) :
    ∃ ws', bitmapClear ws start nbits = some ws' ∧ ws'.length = ws.length ∧
      ∀ i, bit ws' i = (bit ws i && !decide (start ≤ i ∧ i < start + nbits)) := by
  have count : (ws.map (~~~ ·)).length = ws.length := List.length_map _
  obtain ⟨vs, run, length, bits⟩ := @bitmapSet_eq (ws.map (~~~ ·)) start nbits int small (by rw [count]; exact room)
  refine ⟨vs.map (~~~ ·), by rw [bitmapClear_not, run]; rfl, by rw [List.length_map, length, count], fun i => ?_⟩
  by_cases inside : i < 64 * ws.length
  · rw [bit_not (by rw [length, count]; exact inside), bits, bit_not inside, Bool.not_or, Bool.not_not]
  · rw [bit_beyond (by rw [List.length_map, length, count]; omega), bit_beyond (by omega), Bool.false_and]

/-! ## Bytes -/

theorem storeByte_eq {ws : List Word} {i : Nat} (v : BitVec 8) (inside : i < 8 * ws.length) :
    ∃ ws', storeByte ws i v = some ws' ∧ ws'.length = ws.length ∧
      ∀ j, bit ws' j = if 8 * i ≤ j ∧ j < 8 * i + 8 then v.getLsbD (j - 8 * i) else bit ws j := by
  obtain ⟨stored, entries⟩ := @store_eq ws (i / 8) (by omega)
    ((ws.getD (i / 8) 0 &&& ~~~ ((0xff#8).setWidth 64 <<< (8 * (i % 8)))) ||| v.setWidth 64 <<< (8 * (i % 8)))
  refine ⟨_, by rw [storeByte, entry (by omega)]; exact stored, List.length_set, fun j => ?_⟩
  have place : j % 64 < 64 := Nat.mod_lt _ (by decide)
  have full (t : Nat) : (0xff#8).getLsbD t = decide (t < 8) := by
    have all : (0xff#8) = BitVec.allOnes 8 := by decide
    rw [all, BitVec.getLsbD_allOnes]
  rw [bit, entries]
  by_cases word : j / 64 = i / 8
  · simp only [if_pos word, BitVec.getLsbD_or, BitVec.getLsbD_and, BitVec.getLsbD_not, BitVec.getLsbD_shiftLeft, BitVec.getLsbD_setWidth, full,
      decide_eq_true place, Bool.true_and]
    by_cases here : 8 * i ≤ j ∧ j < 8 * i + 8
    · have low : ¬ j % 64 < 8 * (i % 8) := by omega
      have near : j % 64 - 8 * (i % 8) < 8 := by omega
      have same : j % 64 - 8 * (i % 8) = j - 8 * i := by omega
      rw [if_pos here, decide_eq_false low, decide_eq_true near, decide_eq_true (by omega : j % 64 - 8 * (i % 8) < 64), same]
      simp
    · rw [if_neg here, bit, word]
      by_cases low : j % 64 < 8 * (i % 8)
      · rw [decide_eq_true low]
        simp
      · have far : ¬ j % 64 - 8 * (i % 8) < 8 := by omega
        rw [decide_eq_false low, decide_eq_false far, BitVec.getLsbD_of_ge v _ (by omega)]
        simp
  · rw [if_neg word, if_neg (by omega), bit]

theorem memset_eq {ws : List Word} {p n : Nat} (v : BitVec 8) (inside : p + n ≤ 8 * ws.length) :
    ∃ ws', memset ws p n v = some ws' ∧ ws'.length = ws.length ∧
      ∀ j, bit ws' j = if 8 * p ≤ j ∧ j < 8 * (p + n) then v.getLsbD (j % 8) else bit ws j := by
  refine countUp_rule (fun k (ws' : List Word) => ws'.length = ws.length ∧
    ∀ j, bit ws' j = if 8 * p ≤ j ∧ j < 8 * (p + k) then v.getLsbD (j % 8) else bit ws j) ⟨rfl, fun j => (if_neg (by omega)).symm⟩ ?_
  rintro k ws' less ⟨length, bits⟩
  obtain ⟨ws'', stored, length', bits'⟩ := @storeByte_eq ws' (p + k) v (by omega)
  refine ⟨ws'', stored, length'.trans length, fun j => ?_⟩
  rw [bits', bits]
  by_cases here : 8 * (p + k) ≤ j ∧ j < 8 * (p + k) + 8
  · have place : j - 8 * (p + k) = j % 8 := by omega
    rw [if_pos here, if_pos (by omega), place]
  · by_cases early : 8 * p ≤ j ∧ j < 8 * (p + k)
    · rw [if_neg here, if_pos early, if_pos (by omega)]
    · rw [if_neg here, if_neg early, if_neg (by omega)]

theorem memcmp_eq {s t : List Word} {n : Nat} (inside : n ≤ 8 * s.length) (inside' : n ≤ 8 * t.length) :
    memcmp s t n = some (decide (∃ i < 8 * n, bit s i ≠ bit t i)) := by
  have byte {ws : List Word} {k : Nat} (room : k < 8 * ws.length) :
      byteAt ws k = some ((ws.getD (k / 8) 0 >>> (8 * (k % 8))).setWidth 8) := by
    rw [byteAt, entry (by omega), Option.map_some]
  have place (ws : List Word) (k t : Nat) (less : t < 8) : ((ws.getD (k / 8) 0 >>> (8 * (k % 8))).setWidth 8).getLsbD t = bit ws (8 * k + t) := by
    have word : 8 * k + t = 64 * (k / 8) + (8 * (k % 8) + t) := by omega
    rw [BitVec.getLsbD_setWidth, decide_eq_true less, Bool.true_and, BitVec.getLsbD_ushiftRight, word, bit_word ws _ (by omega)]
  have known (k : Nat) (less : k < n) : (do some ((← byteAt s k) != (← byteAt t k)) : Option Bool) =
      some ((s.getD (k / 8) 0 >>> (8 * (k % 8))).setWidth 8 != (t.getD (k / 8) 0 >>> (8 * (k % 8))).setWidth 8) := by
    rw [byte (by omega), byte (by omega)]
    rfl
  rw [memcmp, search_eq known]
  refine congrArg some (decide_eq_decide.mpr ?_)
  constructor
  · rintro ⟨k, less, differ⟩
    have differ := bne_iff_ne.mp differ
    by_contra same
    push Not at same
    refine differ (BitVec.eq_of_getLsbD_eq fun b inside => ?_)
    rw [place s k b inside, place t k b inside]
    exact same _ (by omega)
  · rintro ⟨i, less, differ⟩
    refine ⟨i / 8, by omega, bne_iff_ne.mpr fun same => differ ?_⟩
    have bits := congrArg (fun b : BitVec 8 => b.getLsbD (i % 8)) same
    rw [place s _ _ (Nat.mod_lt _ (by decide)), place t _ _ (Nat.mod_lt _ (by decide)), Nat.div_add_mod] at bits
    exact bits

/-! ## Word by word

The logical operations and the comparisons of bitmaps.  Some of them mask the last word and some do not.
-/

/-- `bitmap1[k] op bitmap2[k]`. -/
def combine (op : Word → Word → Word) (bitmap1 bitmap2 : List Word) (k : Nat) : Option Word := do
  let x ← bitmap1[k]?
  let y ← bitmap2[k]?
  some (op x y)

/-- The round of a loop that keeps the disjunction of the words it stores. -/
def maskedRound (op : Word → Word → Word) (bitmap1 bitmap2 : List Word) (k : Nat) (state : List Word × Word) : Option (List Word × Word) := do
  let w ← combine op bitmap1 bitmap2 k
  let dst ← store state.1 k w
  some (dst, state.2 ||| w)

/-- `__bitmap_and` and `__bitmap_andnot`: the new words, and whether a bit is set in them. -/
def maskedWords (op : Word → Word → Word) (dst bitmap1 bitmap2 : List Word) (nbits : Nat) : Option (List Word × Bool) := do
  let lim := nbits / 64
  let (dst, result) ← countUp (maskedRound op bitmap1 bitmap2) lim (dst, 0)
  if nbits % 64 ≠ 0 then do
    let w ← combine op bitmap1 bitmap2 lim
    let dst ← store dst lim (w &&& lastWordMask nbits)
    some (dst, (result ||| w &&& lastWordMask nbits) != 0)
  else some (dst, result != 0)

def bitmapAnd (dst bitmap1 bitmap2 : List Word) (nbits : Nat) : Option (List Word × Bool) :=
  maskedWords (fun x y => x &&& y) dst bitmap1 bitmap2 nbits

def bitmapAndnot (dst bitmap1 bitmap2 : List Word) (nbits : Nat) : Option (List Word × Bool) :=
  maskedWords (fun x y => x &&& ~~~ y) dst bitmap1 bitmap2 nbits

/-- `__bitmap_or` and `__bitmap_xor`. -/
def wholeWords (op : Word → Word → Word) (dst bitmap1 bitmap2 : List Word) (nbits : Nat) : Option (List Word) :=
  countUp (fun k dst => do store dst k (← combine op bitmap1 bitmap2 k)) (bitsToLongs nbits) dst

def bitmapOr (dst bitmap1 bitmap2 : List Word) (nbits : Nat) : Option (List Word) := wholeWords (fun x y => x ||| y) dst bitmap1 bitmap2 nbits

def bitmapXor (dst bitmap1 bitmap2 : List Word) (nbits : Nat) : Option (List Word) := wholeWords (fun x y => x ^^^ y) dst bitmap1 bitmap2 nbits

/-- `__bitmap_complement`. -/
def bitmapComplement (dst src : List Word) (nbits : Nat) : Option (List Word) :=
  countUp (fun k dst => do store dst k (~~~ (← src[k]?))) (bitsToLongs nbits) dst

/-- Whether a pair of words passes the test, or the last pair in the bits that count. -/
def anyWord (test : Word → Word → Bool) (op : Word → Word → Word) (bitmap1 bitmap2 : List Word) (nbits : Nat) : Option Bool := do
  let lim := nbits / 64
  let found ← search (fun k => do some (test (← bitmap1[k]?) (← bitmap2[k]?))) lim
  if found then some true
  else if nbits % 64 ≠ 0 then (combine op bitmap1 bitmap2 lim).map fun w => (w &&& lastWordMask nbits) != 0
  else some false

/-- `__bitmap_intersects`. -/
def bitmapIntersects (bitmap1 bitmap2 : List Word) (nbits : Nat) : Option Bool :=
  anyWord (fun x y => (x &&& y) != 0) (fun x y => x &&& y) bitmap1 bitmap2 nbits

/-- `__bitmap_subset`. -/
def bitmapSubset (bitmap1 bitmap2 : List Word) (nbits : Nat) : Option Bool :=
  (anyWord (fun x y => (x &&& ~~~ y) != 0) (fun x y => x &&& ~~~ y) bitmap1 bitmap2 nbits).map (!·)

/-- `__bitmap_equal`. -/
def bitmapEqual (bitmap1 bitmap2 : List Word) (nbits : Nat) : Option Bool :=
  (anyWord (fun x y => x != y) (fun x y => x ^^^ y) bitmap1 bitmap2 nbits).map (!·)

/-! ## Comparisons -/

/-- A loop over the words looks at all the bits that count. -/
theorem anyWord_eq {test : Word → Word → Bool} {op : Word → Word → Word} {f : Bool → Bool → Bool}
    (test_op : ∀ x y, test x y = (op x y != 0)) (bits : ∀ x y t, t < 64 → (op x y).getLsbD t = f (x.getLsbD t) (y.getLsbD t))
    {ws vs : List Word} {nbits : Nat} (small : nbits < 2 ^ 32) (room : nbits ≤ 64 * ws.length) (room' : nbits ≤ 64 * vs.length) :
    anyWord test op ws vs nbits = some (decide (∃ i < nbits, f (bit ws i) (bit vs i) = true)) := by
  have word {k : Nat} : (op (ws.getD k 0) (vs.getD k 0) != 0) = true ↔ ∃ t < 64, f (bit ws (64 * k + t)) (bit vs (64 * k + t)) = true := by
    rw [word_ne_zero]
    refine exists_congr fun t => and_congr_right fun inside => ?_
    rw [bits _ _ t inside, bit_word ws k inside, bit_word vs k inside]
  have known (k : Nat) (less : k < nbits / 64) : (do some (test (← ws[k]?) (← vs[k]?)) : Option Bool) = some (op (ws.getD k 0) (vs.getD k 0) != 0) := by
    rw [entry (by omega), entry (by omega)]
    exact congrArg some (test_op _ _)
  rw [anyWord, search_eq known]
  simp only [Option.bind_eq_bind, Option.bind_some]
  by_cases early : ∃ k < nbits / 64, (op (ws.getD k 0) (vs.getD k 0) != 0) = true
  · have hit : ∃ i < nbits, f (bit ws i) (bit vs i) = true := by
      obtain ⟨k, less, found⟩ := early
      obtain ⟨t, inside, set⟩ := word.mp found
      exact ⟨_, by omega, set⟩
    rw [decide_eq_true early, decide_eq_true hit]
    rfl
  · have none {i : Nat} (less : i < 64 * (nbits / 64)) : ¬ f (bit ws i) (bit vs i) = true := by
      intro set
      refine early ⟨i / 64, by omega, word.mpr ⟨i % 64, Nat.mod_lt _ (by decide), ?_⟩⟩
      rwa [Nat.div_add_mod]
    rw [decide_eq_false early, if_neg Bool.false_ne_true]
    split
    · rename_i part
      have both : combine op ws vs (nbits / 64) = some (op (ws.getD (nbits / 64) 0) (vs.getD (nbits / 64) 0)) := by
        rw [combine, entry (by omega), entry (by omega)]
        rfl
      rw [both, Option.map_some]
      refine congrArg some (Bool.eq_iff_iff.mpr ?_)
      rw [decide_eq_true_iff, word_ne_zero]
      constructor
      · rintro ⟨t, inside, set⟩
        rw [BitVec.getLsbD_and, getLsbD_lastWordMask (by omega) (by omega) small (Nat.mod_mod nbits 64).symm] at set
        obtain ⟨set, counts⟩ := Bool.and_eq_true_iff.mp set
        have counts := of_decide_eq_true counts
        rw [bits _ _ t inside, ← bit_word ws _ inside, ← bit_word vs _ inside] at set
        exact ⟨_, by omega, set⟩
      · rintro ⟨i, less, set⟩
        have late : 64 * (nbits / 64) ≤ i := by
          by_contra before
          exact none (by omega) set
        refine ⟨i - 64 * (nbits / 64), by omega, ?_⟩
        rw [BitVec.getLsbD_and, getLsbD_lastWordMask (by omega) (by omega) small (Nat.mod_mod nbits 64).symm, decide_eq_true (by omega), Bool.and_true,
          bits _ _ _ (by omega), ← bit_word ws _ (by omega), ← bit_word vs _ (by omega), Nat.add_sub_of_le late]
        exact set
    · have all : ¬ ∃ i < nbits, f (bit ws i) (bit vs i) = true := by
        rintro ⟨i, less, set⟩
        exact none (by omega) set
      rw [decide_eq_false all]

section Compare

variable {ws vs : List Word} {nbits : Nat}

theorem bitmapIntersects_eq (small : nbits < 2 ^ 32) (room : nbits ≤ 64 * ws.length) (room' : nbits ≤ 64 * vs.length) :
    bitmapIntersects ws vs nbits = some (decide (∃ i < nbits, (bit ws i && bit vs i) = true)) :=
  anyWord_eq (fun _ _ => rfl) (fun _ _ _ _ => BitVec.getLsbD_and) small room room'

theorem bitmapSubset_eq (small : nbits < 2 ^ 32) (room : nbits ≤ 64 * ws.length) (room' : nbits ≤ 64 * vs.length) :
    bitmapSubset ws vs nbits = some (decide (∀ i < nbits, bit ws i = true → bit vs i = true)) := by
  have bits (x y : Word) (t : Nat) (inside : t < 64) : (x &&& ~~~ y).getLsbD t = (x.getLsbD t && !y.getLsbD t) := by
    rw [BitVec.getLsbD_and, BitVec.getLsbD_not, decide_eq_true inside, Bool.true_and]
  rw [bitmapSubset, anyWord_eq (f := fun a b => a && !b) (fun _ _ => rfl) bits small room room', Option.map_some, ← decide_not]
  refine congrArg some (decide_eq_decide.mpr ?_)
  push Not
  refine forall₂_congr fun i less => ?_
  cases bit ws i <;> cases bit vs i <;> simp

theorem bitmapEqual_eq (small : nbits < 2 ^ 32) (room : nbits ≤ 64 * ws.length) (room' : nbits ≤ 64 * vs.length) :
    bitmapEqual ws vs nbits = some (decide (∀ i < nbits, bit ws i = bit vs i)) := by
  have test (x y : Word) : (x != y) = ((x ^^^ y) != 0) := by
    rw [Bool.eq_iff_iff, bne_iff_ne, bne_iff_ne]
    exact not_congr BitVec.xor_eq_zero_iff.symm
  rw [bitmapEqual, anyWord_eq (f := fun a b => a ^^ b) test (fun _ _ _ _ => BitVec.getLsbD_xor) small room room', Option.map_some, ← decide_not]
  refine congrArg some (decide_eq_decide.mpr ?_)
  push Not
  refine forall₂_congr fun i less => ?_
  cases bit ws i <;> cases bit vs i <;> simp

end Compare

end Miracle.Bitmap
