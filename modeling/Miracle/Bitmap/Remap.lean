import Miracle.Bitmap.Find
import Miracle.Bitmap.Weight
import Miracle.Lib.Positions

/-! # Maps between bitmaps

A pair of bitmaps maps the positions of one to the positions of the other, ordinal by ordinal.  The
destination is an array of its own.
-/

namespace Miracle.Bitmap

open BitScan Positions

/-! ## Operations -/

def testBit (nr : Nat) (addr : List Word) : Option Bool := (addr[nr / 64]?).map fun w : Word => (w >>> (nr % 64)).getLsbD 0

def setBit (nr : Nat) (p : List Word) : Option (List Word) := (p[nr / 64]?).bind fun w => store p (nr / 64) (w ||| 1#64 <<< (nr % 64))

/-- The rounds of `for_each_set_bit`, with fuel for every bit. -/
def eachSetBit {σ : Type} (addr : List Word) (size : Nat) (body : Nat → σ → Option σ) : Nat → Nat → σ → Option σ
  | 0, _, _ => none
  | fuel + 1, bit, s =>
      if bit < size then do
        let s ← body bit s
        let bit ← findNextBit addr size (bit + 1)
        eachSetBit addr size body fuel bit s
      else some s

def forEachSetBit {σ : Type} (addr : List Word) (size : Nat) (body : Nat → σ → Option σ) (s : σ) : Option σ := do
  let bit ← findFirstBit addr size
  eachSetBit addr size body (size + 1) bit s

/-- `bitmap_pos_to_ord`. -/
def bitmapPosToOrd (buf : List Word) (pos nbits : Nat) : Option Int :=
  if nbits ≤ pos then some (-1)
  else do
    let set ← testBit pos buf
    if set then bitmapWeight buf pos else some (-1)

/-- The loop of `bitmap_ord_to_pos`. -/
def ordToPosLoop (buf : List Word) (nbits : Nat) : Nat → Nat → Nat → Option Nat
  | 0, _, _ => none
  | fuel + 1, ord, pos =>
      if pos < nbits ∧ ord ≠ 0 then do
        let next ← findNextBit buf nbits (pos + 1)
        ordToPosLoop buf nbits fuel (ord - 1) next
      else some pos

/-- `bitmap_ord_to_pos`. -/
def bitmapOrdToPos (buf : List Word) (ord nbits : Nat) : Option Nat := do
  let pos ← findFirstBit buf nbits
  ordToPosLoop buf nbits (nbits + 1) ord pos

/-- Where the maps send a bit whose ordinal is `n`, with `w` bits in `new`. -/
def remapTarget (new : List Word) (nbits oldbit : Nat) (n : Int) (w : Nat) : Option Nat :=
  if n < 0 ∨ w = 0 then some oldbit else bitmapOrdToPos new (n.toNat % w) nbits

/-- `bitmap_remap`, where `dst` is not `src`. -/
def bitmapRemap (dst src old new : List Word) (nbits : Nat) : Option (List Word) := do
  let dst ← bitmapZero dst nbits
  let w ← bitmapWeight new nbits
  forEachSetBit src nbits (fun oldbit dst => do
    let n ← bitmapPosToOrd old oldbit nbits
    setBit (← remapTarget new nbits oldbit n w.toNat) dst) dst

/-- `bitmap_bitremap`. -/
def bitmapBitremap (oldbit : Nat) (old new : List Word) (nbits : Nat) : Option Nat := do
  let w ← bitmapWeight new nbits
  let n ← bitmapPosToOrd old oldbit nbits
  remapTarget new nbits oldbit n w.toNat

/-- `bitmap_onto`, where `dst` is not `orig`. -/
def bitmapOnto (dst orig relmap : List Word) (nbits : Nat) : Option (List Word) := do
  let dst ← bitmapZero dst nbits
  let (dst, _) ← forEachSetBit relmap nbits (fun n (dst, m) => do
    let set ← testBit m orig
    let dst ← if set then setBit n dst else some dst
    some (dst, m + 1)) (dst, 0)
  some dst

/-- `bitmap_fold`, where `dst` is not `orig`. -/
def bitmapFold (dst orig : List Word) (sz nbits : Nat) : Option (List Word) := do
  let dst ← bitmapZero dst nbits
  forEachSetBit orig nbits (fun oldbit dst => setBit (oldbit % sz) dst) dst

/-! ## Loops over the set bits -/

section Loops

variable {ws : List Word} {nbits : Nat}

theorem eachSetBit_eq {σ : Type} {body : Nat → σ → Option σ} (small : nbits < 2 ^ 62) (room : nbits ≤ 64 * ws.length) {fuel q : Nat} {s : σ}
    (enough : nbits < fuel + q) (inside : q ≤ nbits) :
    eachSetBit ws nbits body fuel (findNext (bit ws) true nbits q) s = (positionsFrom (bit ws) q nbits).foldlM (fun s b => body b s) s := by
  induction fuel generalizing q s with
  | zero => omega
  | succ fuel ih =>
      rw [eachSetBit]
      by_cases less : findNext (bit ws) true nbits q < nbits
      · have lower := (findNext_spec (bit ws) true nbits q).2.1 inside
        rw [if_pos less, positionsFrom_next less, List.foldlM_cons, findNextBit_of small room]
        simp only [Option.bind_eq_bind, Option.bind_some]
        refine congrArg (Option.bind _) (funext fun s' => ?_)
        exact ih (by omega) less
      · rw [if_neg less, positionsFrom_end less]
        rfl

/-- The loop takes the set bits in ascending order. -/
theorem forEachSetBit_eq {σ : Type} (body : Nat → σ → Option σ) (small : nbits < 2 ^ 62) (room : nbits ≤ 64 * ws.length) (s : σ) :
    forEachSetBit ws nbits body s = (positions (bit ws) nbits).foldlM (fun s b => body b s) s := by
  rw [forEachSetBit, findFirstBit_eq room]
  exact eachSetBit_eq small room (by omega) (Nat.zero_le _)

theorem ordToPosLoop_eq (small : nbits < 2 ^ 62) (room : nbits ≤ 64 * ws.length) {fuel q ord : Nat} (enough : nbits < fuel + q) (inside : q ≤ nbits) :
    ordToPosLoop ws nbits fuel ord (findNext (bit ws) true nbits q) = some ((positionsFrom (bit ws) q nbits)[ord]?.getD nbits) := by
  induction fuel generalizing q ord with
  | zero => omega
  | succ fuel ih =>
      rw [ordToPosLoop]
      by_cases less : findNext (bit ws) true nbits q < nbits
      · have lower := (findNext_spec (bit ws) true nbits q).2.1 inside
        rw [positionsFrom_next less]
        cases ord with
        | zero => rw [if_neg (fun both => both.2 rfl), List.getElem?_cons_zero, Option.getD_some]
        | succ ord =>
            rw [if_pos ⟨less, Nat.succ_ne_zero ord⟩, findNextBit_of small room]
            simp only [Option.bind_eq_bind, Option.bind_some, List.getElem?_cons_succ, Nat.add_sub_cancel]
            exact ih (by omega) less
      · have upper := (findNext_spec (bit ws) true nbits q).1
        have last : findNext (bit ws) true nbits q = nbits := by omega
        rw [if_neg (fun both => less both.1), positionsFrom_end less, last]
        rfl

theorem bitmapOrdToPos_eq (small : nbits < 2 ^ 62) (room : nbits ≤ 64 * ws.length) (ord : Nat) :
    bitmapOrdToPos ws ord nbits = some ((positions (bit ws) nbits)[ord]?.getD nbits) := by
  rw [bitmapOrdToPos, findFirstBit_eq room]
  exact ordToPosLoop_eq small room (by omega) (Nat.zero_le _)

end Loops

/-! ## Single bits -/

theorem testBit_eq {ws : List Word} {nr : Nat} (inside : nr < 64 * ws.length) : testBit nr ws = some (bit ws nr) := by
  rw [testBit, entry (by omega), Option.map_some, BitVec.getLsbD_ushiftRight, Nat.add_zero, bit]

theorem setBit_eq {ws : List Word} {nr : Nat} (inside : nr < 64 * ws.length) :
    ∃ ws', setBit nr ws = some ws' ∧ ws'.length = ws.length ∧ ∀ i, bit ws' i = (bit ws i || decide (i = nr)) := by
  obtain ⟨stored, entries⟩ := @store_eq ws (nr / 64) (by omega) (ws.getD (nr / 64) 0 ||| 1#64 <<< (nr % 64))
  refine ⟨_, by rw [setBit, entry (by omega)]; exact stored, List.length_set, fun i => ?_⟩
  have place : i % 64 < 64 := Nat.mod_lt _ (by decide)
  rw [bit, entries]
  by_cases word : i / 64 = nr / 64
  · have same : i % 64 = nr % 64 ↔ i = nr := by omega
    rw [if_pos word, BitVec.getLsbD_or, getLsbD_bitMask nr place, decide_eq_decide.mpr same, bit, word]
  · rw [if_neg word, decide_eq_false (by omega), Bool.or_false, bit]

theorem weight_eq {ws : List Word} {nbits : Nat} (int : nbits < 2 ^ 31) (room : nbits ≤ 64 * ws.length) :
    bitmapWeight ws nbits = some ((positions (bit ws) nbits).length : Int) := by
  have most : (positions (bit ws) nbits).length ≤ nbits := by
    rw [positions_length]
    exact List.countP_le_length.trans_eq List.length_range
  rw [bitmapWeight_eq (by omega) room, bits_count, ← positions_length]
  exact congrArg some (Int.bmod_eq_of_le (by omega) (by omega))

theorem posToOrd_eq {ws : List Word} {pos nbits : Nat} (int : nbits < 2 ^ 31) (room : nbits ≤ 64 * ws.length) (inside : pos < nbits) :
    bitmapPosToOrd ws pos nbits = some (if bit ws pos = true then ((positions (bit ws) pos).length : Int) else -1) := by
  rw [bitmapPosToOrd, if_neg (by omega), testBit_eq (by omega)]
  simp only [Option.bind_eq_bind, Option.bind_some]
  split
  · exact weight_eq (by omega) (by omega)
  · rfl

/-! ## The map of positions -/

/-- Where a position goes. -/
def remapPos (old new : Nat → Bool) (nbits p : Nat) : Nat :=
  if old p = true ∧ positions new nbits ≠ [] then
    (positions new nbits)[(positions old p).length % (positions new nbits).length]?.getD nbits
  else p

section Map

variable {old new : Nat → Bool} {nbits p q n : Nat}

theorem remapPos_unset (unset : old p = false) : remapPos old new nbits p = p := by
  rw [remapPos, unset]
  exact if_neg fun both => Bool.false_ne_true both.1

theorem remapPos_empty (empty : positions new nbits = []) : remapPos old new nbits p = p := if_neg fun both => both.2 empty

/-- The bit with ordinal `n` goes to the bit with ordinal `n % w`. -/
theorem remapPos_ordinal (here : (positions old nbits)[n]? = some p) (some_ : positions new nbits ≠ []) :
    (positions new nbits)[n % (positions new nbits).length]? = some (remapPos old new nbits p) := by
  obtain ⟨-, set, ordinal⟩ := ordinal_of here
  have less := Nat.mod_lt n (List.length_pos_iff.mpr some_)
  rw [remapPos, if_pos ⟨set, some_⟩, ordinal, List.getElem?_eq_getElem less]
  rfl

theorem remapPos_lt (inside : p < nbits) : remapPos old new nbits p < nbits := by
  by_cases set : old p = true
  · by_cases empty : positions new nbits = []
    · rwa [remapPos_empty empty]
    · have target := remapPos_ordinal (positions_ordinal inside set) empty
      exact (mem_positions.mp (List.mem_of_getElem? target)).1
  · rwa [remapPos_unset (Bool.eq_false_of_not_eq_true set)]

/-- A map to the same bits moves nothing. -/
theorem remapPos_same (inside : p < nbits) (same : ∀ i < nbits, old i = new i) : remapPos old new nbits p = p := by
  by_cases set : old p = true
  · by_cases empty : positions new nbits = []
    · exact remapPos_empty empty
    · have here := positions_ordinal inside set
      have target := remapPos_ordinal here empty
      have lists := positions_congr same
      rw [Nat.mod_eq_of_lt (lists ▸ ordinal_lt inside set), ← lists, here] at target
      exact (Option.some.inj target).symm
  · exact remapPos_unset (Bool.eq_false_of_not_eq_true set)

/-- With as many bits on both sides the exchanged map goes back. -/
theorem remapPos_back (inside : p < nbits) (set : old p = true) (weights : (positions old nbits).length = (positions new nbits).length) :
    remapPos new old nbits (remapPos old new nbits p) = p := by
  have here := positions_ordinal inside set
  have less := ordinal_lt inside set
  have some_ : positions new nbits ≠ [] := by
    rw [← List.length_pos_iff]
    omega
  have some_' : positions old nbits ≠ [] := by
    rw [← List.length_pos_iff]
    omega
  have target := remapPos_ordinal here some_
  rw [Nat.mod_eq_of_lt (by omega)] at target
  have back := remapPos_ordinal target some_'
  rw [Nat.mod_eq_of_lt less, here] at back
  exact (Option.some.inj back).symm

end Map

/-! ## The operations -/

/-- The words of an array hold the bits. -/
def Holds (ws : List Word) (nbits : Nat) : Prop := bitsToLongs nbits ≤ ws.length

section Specs

variable {dst src old new orig relmap : List Word} {nbits p : Nat}

theorem Holds.room (holds : Holds src nbits) : nbits ≤ 64 * src.length := by
  unfold Holds bitsToLongs at holds
  omega

theorem remapTarget_eq (int : nbits < 2 ^ 31) (holds : Holds new nbits) :
    remapTarget new nbits p (if bit old p = true then ((positions (bit old) p).length : Int) else -1) (positions (bit new) nbits).length =
      some (remapPos (bit old) (bit new) nbits p) := by
  rw [remapTarget, remapPos]
  by_cases set : bit old p = true
  · by_cases empty : positions (bit new) nbits = []
    · rw [if_pos (.inr (by rw [empty]; rfl)), if_neg (fun both => both.2 empty)]
    · have some_ := List.length_pos_iff.mpr empty
      rw [if_pos set, if_neg (by omega), if_pos ⟨set, empty⟩, bitmapOrdToPos_eq (by omega) holds.room, Int.toNat_natCast]
  · rw [if_neg set, if_pos (.inl (by decide)), if_neg fun both => set both.1]

theorem bitmapBitremap_eq (int : nbits < 2 ^ 31) (holds : Holds old nbits) (holds' : Holds new nbits) (inside : p < nbits) :
    bitmapBitremap p old new nbits = some (remapPos (bit old) (bit new) nbits p) := by
  rw [bitmapBitremap, weight_eq int holds'.room, posToOrd_eq int holds.room inside]
  exact remapTarget_eq int holds'

theorem bitmapZero_eq (holds : Holds dst nbits) :
    ∃ dst', bitmapZero dst nbits = some dst' ∧ dst'.length = dst.length ∧
      ∀ i, bit dst' i = if i < 64 * bitsToLongs nbits then false else bit dst i := by
  have count : (dst.take (bitsToLongs nbits)).length = bitsToLongs nbits := List.length_take_of_le holds
  refine ⟨List.replicate (bitsToLongs nbits) 0 ++ dst.drop (bitsToLongs nbits), if_pos holds, ?_, fun i => ?_⟩
  · unfold Holds at holds
    rw [List.length_append, List.length_replicate, List.length_drop]
    omega
  · have split := bit_append (dst.take (bitsToLongs nbits)) (dst.drop (bitsToLongs nbits)) i
    rw [List.take_append_drop, count] at split
    rw [bit_append, List.length_replicate, bit_replicate, split]
    split
    · rfl
    · rfl

/-- A loop that sets one bit for every position sets the image of the positions. -/
theorem setEach_eq {f : Nat → Nat} {body : Nat → List Word → Option (List Word)} {ps : List Nat} (step : ∀ p ∈ ps, ∀ dst, body p dst = setBit (f p) dst)
    (room : ∀ p ∈ ps, f p < 64 * dst.length) :
    ∃ dst', ps.foldlM (fun s b => body b s) dst = some dst' ∧ dst'.length = dst.length ∧
      ∀ i, bit dst' i = (bit dst i || decide (∃ p ∈ ps, f p = i)) := by
  induction ps generalizing dst with
  | nil => exact ⟨dst, rfl, rfl, fun i => by simp⟩
  | cons p ps ih =>
      obtain ⟨dst', ran, length, bits⟩ := setBit_eq (room p List.mem_cons_self)
      obtain ⟨dst'', later, length', bits'⟩ := @ih dst' (fun q member => step q (List.mem_cons_of_mem p member))
        fun q member => length ▸ room q (List.mem_cons_of_mem p member)
      refine ⟨dst'', ?_, length'.trans length, fun i => ?_⟩
      · rw [List.foldlM_cons, step p List.mem_cons_self, ran]
        exact later
      · rw [bits', bits, Bool.or_assoc]
        congr 1
        rw [Bool.eq_iff_iff]
        simp only [Bool.or_eq_true, decide_eq_true_eq, List.mem_cons]
        constructor
        · rintro (rfl | ⟨q, member, is⟩)
          · exact ⟨p, .inl rfl, rfl⟩
          · exact ⟨q, .inr member, is⟩
        · rintro ⟨q, rfl | member, is⟩
          · exact .inl is.symm
          · exact .inr ⟨q, member, is⟩

theorem bitmapRemap_eq (int : nbits < 2 ^ 31) (room : Holds dst nbits) (source : Holds src nbits) (holds : Holds old nbits) (holds' : Holds new nbits) :
    ∃ dst', bitmapRemap dst src old new nbits = some dst' ∧ dst'.length = dst.length ∧ ∀ i, bit dst' i =
      if i < 64 * bitsToLongs nbits then decide (∃ p < nbits, bit src p = true ∧ remapPos (bit old) (bit new) nbits p = i) else bit dst i := by
  obtain ⟨zero, cleared, length, none⟩ := bitmapZero_eq room
  have step (p : Nat) (member : p ∈ positions (bit src) nbits) (dst : List Word) : ((do
      let n ← bitmapPosToOrd old p nbits
      setBit (← remapTarget new nbits p n ((positions (bit new) nbits).length : Int).toNat) dst) : Option (List Word)) =
        setBit (remapPos (bit old) (bit new) nbits p) dst := by
    rw [posToOrd_eq int holds.room (mem_positions.mp member).1]
    simp only [Option.bind_eq_bind, Option.bind_some, Int.toNat_natCast, remapTarget_eq int holds']
  obtain ⟨dst', ran, length', bits⟩ := @setEach_eq zero _ _ _ step fun p member => by
    have less := @remapPos_lt (bit old) (bit new) nbits p (mem_positions.mp member).1
    have := room.room
    omega
  refine ⟨dst', ?_, length'.trans length, fun i => ?_⟩
  · rw [bitmapRemap, cleared, weight_eq int holds'.room]
    simp only [Option.bind_eq_bind, Option.bind_some]
    rw [forEachSetBit_eq _ (by omega) source.room]
    exact ran
  · rw [bits, none]
    have image : (∃ p ∈ positions (bit src) nbits, remapPos (bit old) (bit new) nbits p = i) ↔
        ∃ p < nbits, bit src p = true ∧ remapPos (bit old) (bit new) nbits p = i := by
      simp only [mem_positions, and_assoc]
    split
    · rw [Bool.false_or, decide_eq_decide.mpr image]
    · rename_i beyond
      have outside : ¬ ∃ p ∈ positions (bit src) nbits, remapPos (bit old) (bit new) nbits p = i := by
        rintro ⟨p, member, rfl⟩
        exact beyond (lt_bitsToLongs (remapPos_lt (mem_positions.mp member).1))
      rw [decide_eq_false outside, Bool.or_false]

theorem bitmapFold_eq (int : nbits < 2 ^ 31) (room : Holds dst nbits) (source : Holds orig nbits) (sz : Nat) :
    ∃ dst', bitmapFold dst orig sz nbits = some dst' ∧ dst'.length = dst.length ∧
      ∀ i < 64 * bitsToLongs nbits, bit dst' i = decide (∃ m < nbits, bit orig m = true ∧ m % sz = i) := by
  obtain ⟨zero, cleared, length, none⟩ := bitmapZero_eq room
  obtain ⟨dst', ran, length', bits⟩ := @setEach_eq zero (· % sz) (fun p dst => setBit (p % sz) dst) (positions (bit orig) nbits) (fun _ _ _ => rfl)
    fun p member => by
      have less := (mem_positions.mp member).1
      have := Nat.mod_le p sz
      have := room.room
      omega
  refine ⟨dst', ?_, length'.trans length, fun i inside => ?_⟩
  · rw [bitmapFold, cleared]
    simp only [Option.bind_eq_bind, Option.bind_some]
    rw [forEachSetBit_eq _ (by omega) source.room]
    exact ran
  · rw [bits, none, if_pos inside, Bool.false_or]
    exact decide_eq_decide.mpr (by simp only [mem_positions, and_assoc])

/-- A round of `bitmap_onto`. -/
def ontoRound (orig : List Word) (n : Nat) : List Word × Nat → Option (List Word × Nat) := fun (dst, m) => do
  let set ← testBit m orig
  let dst ← if set then setBit n dst else some dst
  some (dst, m + 1)

theorem ontoEach_eq {ps : List Nat} {m : Nat} (enough : m + ps.length ≤ 64 * orig.length) (room : ∀ p ∈ ps, p < 64 * dst.length) :
    ∃ dst', ps.foldlM (fun s b => ontoRound orig b s) (dst, m) = some (dst', m + ps.length) ∧ dst'.length = dst.length ∧
      ∀ i, bit dst' i = true ↔ bit dst i = true ∨ ∃ k, ps[k]? = some i ∧ bit orig (m + k) = true := by
  induction ps generalizing dst m with
  | nil => exact ⟨dst, rfl, rfl, fun i => by simp⟩
  | cons p ps ih =>
      rw [List.length_cons] at enough
      have step : ∃ dst', ontoRound orig p (dst, m) = some (dst', m + 1) ∧ dst'.length = dst.length ∧
          ∀ i, bit dst' i = true ↔ bit dst i = true ∨ i = p ∧ bit orig m = true := by
        rw [ontoRound, testBit_eq (by omega)]
        simp only [Option.bind_eq_bind, Option.bind_some]
        by_cases set : bit orig m = true
        · obtain ⟨dst', ran, length, bits⟩ := setBit_eq (room p List.mem_cons_self)
          refine ⟨dst', by rw [if_pos set, ran]; rfl, length, fun i => ?_⟩
          rw [bits, Bool.or_eq_true, decide_eq_true_iff, and_iff_left set]
        · exact ⟨dst, if_neg set ▸ rfl, rfl, fun i => (or_iff_left fun both => set both.2).symm⟩
      obtain ⟨dst', ran, length, bits⟩ := step
      obtain ⟨dst'', later, length', bits'⟩ := @ih dst' (m + 1) (by omega) fun q member => length ▸ room q (List.mem_cons_of_mem p member)
      refine ⟨dst'', ?_, length'.trans length, fun i => ?_⟩
      · rw [List.foldlM_cons, ran, List.length_cons, Nat.add_comm ps.length 1, ← Nat.add_assoc]
        exact later
      · rw [bits', bits, or_assoc]
        refine or_congr_right ?_
        constructor
        · rintro (⟨rfl, set⟩ | ⟨k, is, set⟩)
          · exact ⟨0, rfl, set⟩
          · exact ⟨k + 1, is, by rwa [Nat.add_comm k 1, ← Nat.add_assoc]⟩
        · rintro ⟨k, is, set⟩
          cases k with
          | zero => exact .inl ⟨(Option.some.inj is).symm, set⟩
          | succ k => exact .inr ⟨k, is, by rwa [Nat.add_comm k 1, ← Nat.add_assoc] at set⟩

theorem bitmapOnto_eq (int : nbits < 2 ^ 31) (room : Holds dst nbits) (source : Holds orig nbits) (holds : Holds relmap nbits) :
    ∃ dst', bitmapOnto dst orig relmap nbits = some dst' ∧ dst'.length = dst.length ∧
      ∀ i < 64 * bitsToLongs nbits, bit dst' i = true ↔ ∃ m, (positions (bit relmap) nbits)[m]? = some i ∧ bit orig m = true := by
  obtain ⟨zero, cleared, length, none⟩ := bitmapZero_eq room
  have most : (positions (bit relmap) nbits).length ≤ nbits := by
    rw [positions_length]
    exact List.countP_le_length.trans_eq List.length_range
  obtain ⟨dst', ran, length', bits⟩ := @ontoEach_eq zero orig (positions (bit relmap) nbits) 0 (by have := source.room; omega) fun p member => by
    have less := (mem_positions.mp member).1
    have := room.room
    omega
  refine ⟨dst', ?_, length'.trans length, fun i inside => ?_⟩
  · rw [bitmapOnto, cleared]
    simp only [Option.bind_eq_bind, Option.bind_some]
    rw [forEachSetBit_eq _ (by omega) holds.room]
    exact (congrArg (Option.bind · fun s => some s.1) ran).trans rfl
  · rw [bits, none, if_pos inside, or_iff_right Bool.false_ne_true]
    simp only [Nat.zero_add]

end Specs

/-- What the maps do to all the bits of the words that hold the bitmaps. -/
structure RemapCoherent : Prop where
  /-- The destination is the image of the source. -/
  remap : ∀ (nbits : Nat) (dst src old new : List Word), nbits < 2 ^ 31 → Holds dst nbits → Holds src nbits → Holds old nbits → Holds new nbits →
    ∃ dst', bitmapRemap dst src old new nbits = some dst' ∧ dst'.length = dst.length ∧ ∀ i < 64 * bitsToLongs nbits,
      (bit dst' i = true ↔ ∃ p < nbits, bit src p = true ∧ bitmapBitremap p old new nbits = some i)
  /-- A position outside `old` stays, and the ordinals of the others are kept modulo the weight of `new`. -/
  bitremap : ∀ (nbits : Nat) (old new : List Word) (p : Nat), nbits < 2 ^ 31 → Holds old nbits → Holds new nbits → p < nbits →
    ∃ q < nbits, bitmapBitremap p old new nbits = some q ∧ (bit old p = false → q = p) ∧
      (∀ n, (positions (bit old) nbits)[n]? = some p → positions (bit new) nbits ≠ [] →
        (positions (bit new) nbits)[n % (bits new nbits).count true]? = some q) ∧
      (bits old nbits = bits new nbits ∨ positions (bit new) nbits = [] → q = p)
  /-- With the same weights the exchanged map gives back what is contained in `old`. -/
  back : ∀ (nbits : Nat) (dst dst₂ src old new : List Word), nbits < 2 ^ 31 → Holds dst nbits → Holds dst₂ nbits → Holds src nbits → Holds old nbits →
    Holds new nbits → (bits old nbits).count true = (bits new nbits).count true → (∀ p < nbits, bit src p = true → bit old p = true) →
    ∃ dst' dst₂', bitmapRemap dst src old new nbits = some dst' ∧ bitmapRemap dst₂ dst' new old nbits = some dst₂' ∧ bits dst₂' nbits = bits src nbits
  onto : ∀ (nbits : Nat) (dst orig relmap : List Word), nbits < 2 ^ 31 → Holds dst nbits → Holds orig nbits → Holds relmap nbits →
    ∃ dst', bitmapOnto dst orig relmap nbits = some dst' ∧ dst'.length = dst.length ∧ ∀ i < 64 * bitsToLongs nbits,
      (bit dst' i = true ↔ ∃ m, (positions (bit relmap) nbits)[m]? = some i ∧ bit orig m = true)
  ontoFold : ∀ (nbits : Nat) (dst dst₂ orig relmap : List Word), nbits < 2 ^ 31 → Holds dst nbits → Holds dst₂ nbits → Holds orig nbits →
    Holds relmap nbits → positions (bit relmap) nbits ≠ [] →
    ∃ dst' dst₂', bitmapFold dst orig ((bits relmap nbits).count true) nbits = some dst' ∧ bitmapOnto dst₂ dst' relmap nbits = some dst₂' ∧
      ∀ i < 64 * bitsToLongs nbits, (bit dst₂' i = true ↔
        ∃ m < nbits, bit orig m = true ∧ (positions (bit relmap) nbits)[m % (bits relmap nbits).count true]? = some i)

theorem count_positions (ws : List Word) (nbits : Nat) : (bits ws nbits).count true = (positions (bit ws) nbits).length := by
  rw [bits_count, positions_length]

theorem bits_congr {ws vs : List Word} {nbits : Nat} : bits ws nbits = bits vs nbits ↔ ∀ i < nbits, bit ws i = bit vs i := by
  rw [bits, bits, List.map_inj_left]
  simp only [List.mem_range]

end Miracle.Bitmap
