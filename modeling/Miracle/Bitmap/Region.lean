import Miracle.Bitmap.Weight

/-! # Regions of bitmaps

A region has a power of two of bits and is aligned to its size.  It is a part of one word, or it
consists of whole words.
-/

namespace Miracle.Bitmap

open CountLoop

def enomem : Int := 12

def ebusy : Int := 16

/-- The operations of `__reg_op`. -/
inductive RegOp where
  | isFree
  | alloc
  | release
  deriving DecidableEq

/-- The bits of a region in each of its words. -/
def regMask (nbitsInLong offset : Nat) : Word :=
  let mask : Word := 1#64 <<< (nbitsInLong - 1)
  (mask + (mask - 1)) <<< offset

/-- `bitmap[index + i] = op(bitmap[index + i], mask)` for all the words of the region. -/
def changeWords (op : Word → Word → Word) (bitmap : List Word) (index nlongs : Nat) (mask : Word) : Option (List Word) :=
  countUp (fun i bitmap => do store bitmap (index + i) (op (← bitmap[index + i]?) mask)) nlongs bitmap

/-- `__reg_op`. -/
def regOp (bitmap : List Word) (pos order : Nat) (op : RegOp) : Option (Int × List Word) :=
  let nbitsReg := 2 ^ order
  let index := pos / 64
  let offset := pos - index * 64
  let nlongsReg := bitsToLongs nbitsReg
  let mask := regMask (min nbitsReg 64) offset
  match op with
  | .isFree => (search (fun i => (bitmap[index + i]?).map fun w => (w &&& mask) != 0) nlongsReg).map fun taken => (if taken then 0 else 1, bitmap)
  | .alloc => (changeWords (fun w mask => w ||| mask) bitmap index nlongsReg mask).map fun bitmap => (0, bitmap)
  | .release => (changeWords (fun w mask => w &&& ~~~ mask) bitmap index nlongsReg mask).map fun bitmap => (0, bitmap)

/-- The loop of `bitmap_find_free_region`, with fuel for every region. -/
def findFreeLoop (bits order : Nat) : Nat → Nat → List Word → Option (Int × List Word)
  | 0, _, _ => none
  | fuel + 1, pos, bitmap =>
      let stop := u32 (pos + 2 ^ order)
      if stop ≤ bits then do
        let (free, bitmap) ← regOp bitmap pos order .isFree
        if free = 0 then findFreeLoop bits order fuel stop bitmap
        else do
          let (_, bitmap) ← regOp bitmap pos order .alloc
          some (pos, bitmap)
      else some (-enomem, bitmap)

def bitmapFindFreeRegion (bitmap : List Word) (bits order : Nat) : Option (Int × List Word) := findFreeLoop bits order (bits + 1) 0 bitmap

def bitmapReleaseRegion (bitmap : List Word) (pos order : Nat) : Option (List Word) := (regOp bitmap pos order .release).map Prod.snd

def bitmapAllocateRegion (bitmap : List Word) (pos order : Nat) : Option (Int × List Word) := do
  let (free, bitmap) ← regOp bitmap pos order .isFree
  if free = 0 then some (-ebusy, bitmap) else regOp bitmap pos order .alloc

/-! ## The mask -/

theorem regMask_ones {n : Nat} (pos : 0 < n) (le : n ≤ 64) {offset t : Nat} (place : t < 64) :
    (regMask n offset).getLsbD t = decide (offset ≤ t ∧ t < offset + n) := by
  have power : 2 ^ n = 2 * 2 ^ (n - 1) := by rw [← pow_succ', Nat.sub_add_cancel pos]
  have some := Nat.two_pow_pos (n - 1)
  have most : 2 ^ n ≤ 2 ^ 64 := Nat.pow_le_pow_right (by decide) le
  have top : (1#64 <<< (n - 1)).toNat = 2 ^ (n - 1) := by
    have unit : (1#64).toNat = 1 := rfl
    rw [BitVec.toNat_shiftLeft, unit, Nat.shiftLeft_eq, Nat.one_mul, Nat.mod_eq_of_lt (by omega)]
  have one : (1 : Word) ≤ 1#64 <<< (n - 1) := by
    rw [BitVec.le_def, top]
    exact some
  have ones : ((1#64 <<< (n - 1)) + ((1#64 <<< (n - 1)) - 1)).toNat = 2 ^ n - 1 := by
    have unit : (1 : Word).toNat = 1 := rfl
    rw [BitVec.toNat_add, BitVec.toNat_sub_of_le one, top, unit, Nat.mod_eq_of_lt (by omega)]
    omega
  have bits (t : Nat) : ((1#64 <<< (n - 1)) + ((1#64 <<< (n - 1)) - 1)).getLsbD t = decide (t < n) := by
    rw [BitVec.getLsbD, ones, Nat.testBit_two_pow_sub_one]
  rw [regMask, BitVec.getLsbD_shiftLeft, bits, decide_eq_true place, Bool.true_and, Bool.eq_iff_iff]
  simp only [Bool.and_eq_true, Bool.not_eq_true', decide_eq_true_eq, decide_eq_false_iff_not]
  omega

section Mask

variable {pos order : Nat}

/-- A region is a part of a word or consists of words. -/
theorem region_cases (aligned : 2 ^ order ∣ pos) :
    (2 ^ order ≤ 64 ∧ bitsToLongs (2 ^ order) = 1 ∧ pos % 64 + 2 ^ order ≤ 64) ∨
      (min (2 ^ order) 64 = 64 ∧ 64 * bitsToLongs (2 ^ order) = 2 ^ order ∧ pos % 64 = 0) := by
  have some := Nat.two_pow_pos order
  unfold bitsToLongs
  rcases Nat.le_total order 6 with low | high
  · obtain ⟨q, words⟩ : 2 ^ order ∣ 64 := pow_dvd_pow 2 low
    have most : 2 ^ order ≤ 64 := Nat.le_of_dvd (by decide) ⟨q, words⟩
    have rest : 2 ^ order ∣ pos % 64 := (Nat.dvd_mod_iff ⟨q, words⟩).mpr aligned
    obtain ⟨r, is⟩ := rest
    have less : 2 ^ order * r < 2 ^ order * q := by
      rw [← is, ← words]
      exact Nat.mod_lt _ (by decide)
    have next : 2 ^ order * (r + 1) ≤ 2 ^ order * q := Nat.mul_le_mul_left _ (Nat.succ_le_of_lt (Nat.lt_of_mul_lt_mul_left less))
    rw [Nat.mul_succ] at next
    exact .inl ⟨most, by omega, by omega⟩
  · have words : 64 ∣ 2 ^ order := pow_dvd_pow 2 high
    have least := Nat.le_of_dvd some words
    exact .inr ⟨Nat.min_eq_right least, by omega, Nat.mod_eq_zero_of_dvd (words.trans aligned)⟩

/-- In every word of the region the mask has the bits of the region. -/
theorem regMask_eq (aligned : 2 ^ order ∣ pos) {k t : Nat} (word : k < bitsToLongs (2 ^ order)) (place : t < 64) :
    (regMask (min (2 ^ order) 64) (pos - pos / 64 * 64)).getLsbD t =
      decide (pos ≤ 64 * (pos / 64 + k) + t ∧ 64 * (pos / 64 + k) + t < pos + 2 ^ order) := by
  have some := Nat.two_pow_pos order
  rw [regMask_ones (by omega) (by omega) place]
  refine decide_eq_decide.mpr ?_
  rcases region_cases aligned with ⟨small, one, within⟩ | ⟨large, words, start⟩
  · rw [one] at word
    omega
  · omega

/-- A bit of the region is in one of its words. -/
theorem region_word (aligned : 2 ^ order ∣ pos) {i : Nat} (low : pos ≤ i) (high : i < pos + 2 ^ order) :
    ∃ k < bitsToLongs (2 ^ order), i / 64 = pos / 64 + k := by
  rcases region_cases aligned with ⟨small, one, within⟩ | ⟨large, words, start⟩
  · exact ⟨0, by omega, by omega⟩
  · exact ⟨i / 64 - pos / 64, by omega, by omega⟩

/-- The words of a region that fits are in the array. -/
theorem region_room (aligned : 2 ^ order ∣ pos) {len k : Nat} (room : pos + 2 ^ order ≤ 64 * len) (word : k < bitsToLongs (2 ^ order)) :
    pos / 64 + k < len := by
  have some := Nat.two_pow_pos order
  rcases region_cases aligned with ⟨small, one, within⟩ | ⟨large, words, start⟩ <;> omega

end Mask

/-! ## One region -/

section Region

variable {ws : List Word} {pos order : Nat}

theorem changeWords_eq {op : Word → Word → Word} {v : Bool} (aligned : 2 ^ order ∣ pos) (room : pos + 2 ^ order ≤ 64 * ws.length)
    (bits : ∀ x y t, t < 64 → (op x y).getLsbD t = if y.getLsbD t = true then v else x.getLsbD t) :
    ∃ ws', changeWords op ws (pos / 64) (bitsToLongs (2 ^ order)) (regMask (min (2 ^ order) 64) (pos - pos / 64 * 64)) = some ws' ∧
      ws'.length = ws.length ∧ ∀ i, bit ws' i = if pos ≤ i ∧ i < pos + 2 ^ order then v else bit ws i := by
  have loop := @countUp_rule _ (fun i bitmap => do
      store bitmap (pos / 64 + i) (op (← bitmap[pos / 64 + i]?) (regMask (min (2 ^ order) 64) (pos - pos / 64 * 64))))
    (bitsToLongs (2 ^ order)) ws (fun k (ws' : List Word) => ws'.length = ws.length ∧ ∀ i, bit ws' i =
      if (pos ≤ i ∧ i < pos + 2 ^ order) ∧ i / 64 < pos / 64 + k then v else bit ws i)
    ⟨rfl, fun i => (if_neg (by omega)).symm⟩ (by
      rintro k ws' word ⟨length, kept⟩
      have inside := region_room aligned room word
      obtain ⟨stored, entries⟩ := @store_eq ws' (pos / 64 + k) (by omega)
        (op (ws'.getD (pos / 64 + k) 0) (regMask (min (2 ^ order) 64) (pos - pos / 64 * 64)))
      refine ⟨_, by rw [entry (by omega)]; exact stored, List.length_set.trans length, fun i => ?_⟩
      have place : i % 64 < 64 := Nat.mod_lt _ (by decide)
      have whole := Nat.div_add_mod i 64
      rw [bit, entries]
      by_cases here : i / 64 = pos / 64 + k
      · have old := kept i
        rw [bit, if_neg (by omega)] at old
        rw [if_pos here, bits _ _ _ place, regMask_eq aligned word place, ← here, whole, old]
        by_cases changed : pos ≤ i ∧ i < pos + 2 ^ order
        · rw [if_pos (decide_eq_true changed), if_pos ⟨changed, by omega⟩]
        · rw [if_neg (by rw [decide_eq_true_iff]; exact changed), if_neg (fun both => changed both.1)]
      · rw [if_neg here, ← bit, kept]
        have same : i / 64 < pos / 64 + (k + 1) ↔ i / 64 < pos / 64 + k := by omega
        simp only [same])
  obtain ⟨ws', run, length, kept⟩ := loop
  refine ⟨ws', run, length, fun i => ?_⟩
  rw [kept]
  by_cases inside : pos ≤ i ∧ i < pos + 2 ^ order
  · obtain ⟨k, word, here⟩ := region_word aligned inside.1 inside.2
    rw [if_pos ⟨inside, by omega⟩, if_pos inside]
  · rw [if_neg (fun both => inside both.1), if_neg inside]

/-- All bits of the region are clear. -/
def Free (ws : List Word) (pos order : Nat) : Prop := ∀ i, pos ≤ i → i < pos + 2 ^ order → bit ws i = false

/-- `ws'` is `ws` with the bits of the region changed to `v`. -/
def Filled (v : Bool) (ws : List Word) (pos order : Nat) (ws' : List Word) : Prop :=
  ws'.length = ws.length ∧ ∀ i, bit ws' i = if pos ≤ i ∧ i < pos + 2 ^ order then v else bit ws i

theorem regOp_isFree (aligned : 2 ^ order ∣ pos) (room : pos + 2 ^ order ≤ 64 * ws.length) :
    ∃ free : Int, regOp ws pos order .isFree = some (free, ws) ∧ (free = 0 ∧ ¬ Free ws pos order ∨ free = 1 ∧ Free ws pos order) := by
  have known (k : Nat) (word : k < bitsToLongs (2 ^ order)) :
      ((ws[pos / 64 + k]?).map fun w => (w &&& regMask (min (2 ^ order) 64) (pos - pos / 64 * 64)) != 0) =
        some ((ws.getD (pos / 64 + k) 0 &&& regMask (min (2 ^ order) 64) (pos - pos / 64 * 64)) != 0) := by
    rw [entry (region_room aligned room word), Option.map_some]
  have taken : (∃ k < bitsToLongs (2 ^ order), ((ws.getD (pos / 64 + k) 0 &&& regMask (min (2 ^ order) 64) (pos - pos / 64 * 64)) != 0) = true) ↔
      ¬ Free ws pos order := by
    rw [Free]
    push Not
    constructor
    · rintro ⟨k, word, found⟩
      obtain ⟨t, place, set⟩ := word_ne_zero.mp found
      rw [BitVec.getLsbD_and, regMask_eq aligned word place] at set
      obtain ⟨set, inside⟩ := Bool.and_eq_true_iff.mp set
      have inside := of_decide_eq_true inside
      refine ⟨_, inside.1, inside.2, ?_⟩
      rw [bit_word ws _ place, set]
      decide
    · rintro ⟨i, low, high, set⟩
      obtain ⟨k, word, here⟩ := region_word aligned low high
      have place : i % 64 < 64 := Nat.mod_lt _ (by decide)
      have whole := Nat.div_add_mod i 64
      refine ⟨k, word, word_ne_zero.mpr ⟨i % 64, place, ?_⟩⟩
      rw [BitVec.getLsbD_and, regMask_eq aligned word place, ← bit_word ws _ place, ← here, whole, decide_eq_true ⟨low, high⟩, Bool.and_true]
      exact Bool.eq_true_of_not_eq_false set
  have run : regOp ws pos order .isFree = some (if decide (∃ k < bitsToLongs (2 ^ order),
      ((ws.getD (pos / 64 + k) 0 &&& regMask (min (2 ^ order) 64) (pos - pos / 64 * 64)) != 0) = true) = true then 0 else 1, ws) := by
    rw [regOp]
    simp only [search_eq known, Option.map_some]
  by_cases free : Free ws pos order
  · refine ⟨1, ?_, .inr ⟨rfl, free⟩⟩
    rw [run, decide_eq_false (mt taken.mp (not_not.mpr free)), if_neg Bool.false_ne_true]
  · refine ⟨0, ?_, .inl ⟨rfl, free⟩⟩
    rw [run, decide_eq_true (taken.mpr free), if_pos rfl]

theorem regOp_alloc (aligned : 2 ^ order ∣ pos) (room : pos + 2 ^ order ≤ 64 * ws.length) :
    ∃ ws', regOp ws pos order .alloc = some (0, ws') ∧ Filled true ws pos order ws' := by
  obtain ⟨ws', run, filled⟩ := @changeWords_eq ws pos order (fun w mask => w ||| mask) true aligned room fun x y t _ => by
    rw [BitVec.getLsbD_or]
    cases y.getLsbD t <;> simp
  exact ⟨ws', by rw [regOp]; simp only [run, Option.map_some], filled⟩

theorem regOp_release (aligned : 2 ^ order ∣ pos) (room : pos + 2 ^ order ≤ 64 * ws.length) :
    ∃ ws', regOp ws pos order .release = some (0, ws') ∧ Filled false ws pos order ws' := by
  obtain ⟨ws', run, filled⟩ := @changeWords_eq ws pos order (fun w mask => w &&& ~~~ mask) false aligned room fun x y t inside => by
    rw [BitVec.getLsbD_and, BitVec.getLsbD_not, decide_eq_true inside, Bool.true_and]
    cases y.getLsbD t <;> simp
  exact ⟨ws', by rw [regOp]; simp only [run, Option.map_some], filled⟩

end Region

/-! ## Sequences of operations -/

/-- The calls on a bitmap of so many bits. -/
inductive RegionCall where
  | find (order : Nat)
  | allocate (pos order : Nat)
  | release (pos order : Nat)

/-- Regions are aligned parts of the bitmap. -/
def RegionCall.Valid (bits : Nat) : RegionCall → Prop
  | .find order => 2 ^ order ≤ bits
  | .allocate pos order => 2 ^ order ∣ pos ∧ pos + 2 ^ order ≤ bits
  | .release pos order => 2 ^ order ∣ pos ∧ pos + 2 ^ order ≤ bits

/-- The returned value, which is 0 for a release, and the words after the call. -/
def RegionCall.run (bits : Nat) (ws : List Word) : RegionCall → Option (Int × List Word)
  | .find order => bitmapFindFreeRegion ws bits order
  | .allocate pos order => bitmapAllocateRegion ws pos order
  | .release pos order => (bitmapReleaseRegion ws pos order).map fun ws => (0, ws)

/-- What a call returns and what it leaves. -/
def RegionCall.Meets (bits : Nat) (ws : List Word) (ret : Int) (ws' : List Word) : RegionCall → Prop
  | .find order =>
      (∃ pos : Nat, ret = pos ∧ IsLeast {p | 2 ^ order ∣ p ∧ p + 2 ^ order ≤ bits ∧ Free ws p order} pos ∧ Filled true ws pos order ws') ∨
        (ret = -enomem ∧ {p | 2 ^ order ∣ p ∧ p + 2 ^ order ≤ bits ∧ Free ws p order} = ∅ ∧ ws' = ws)
  | .allocate pos order => (Free ws pos order ∧ ret = 0 ∧ Filled true ws pos order ws') ∨ (¬ Free ws pos order ∧ ret = -ebusy ∧ ws' = ws)
  | .release pos order => ret = 0 ∧ Filled false ws pos order ws'

/-- A sequence of calls, with what each of them meets and returns. -/
inductive RegionRun (bits : Nat) : List RegionCall → List Word → List Int → List Word → Prop where
  | done {ws : List Word} : RegionRun bits [] ws [] ws
  | call {c : RegionCall} {calls : List RegionCall} {ws ws' ws'' : List Word} {ret : Int} {rets : List Int} (ran : c.run bits ws = some (ret, ws'))
      (meets : c.Meets bits ws ret ws') (later : RegionRun bits calls ws' rets ws'') : RegionRun bits (c :: calls) ws (ret :: rets) ws''

section Calls

variable {ws : List Word} {bits : Nat}

theorem findFreeLoop_eq (int : bits < 2 ^ 31) (room : bits ≤ 64 * ws.length) {order : Nat} (fits : 2 ^ order ≤ bits) {fuel pos : Nat}
    (enough : bits < fuel + pos) (aligned : 2 ^ order ∣ pos) (near : pos ≤ bits)
    (before : ∀ p, 2 ^ order ∣ p → p + 2 ^ order ≤ bits → Free ws p order → pos ≤ p) :
    ∃ ret ws', findFreeLoop bits order fuel pos ws = some (ret, ws') ∧ (RegionCall.find order).Meets bits ws ret ws' := by
  have some_ := Nat.two_pow_pos order
  induction fuel generalizing pos with
  | zero => omega
  | succ fuel ih =>
      rw [findFreeLoop, u32_of_lt (by omega)]
      by_cases more : pos + 2 ^ order ≤ bits
      · obtain ⟨free, test, result⟩ := @regOp_isFree ws pos order aligned (by omega)
        simp only [if_pos more, test, Option.bind_eq_bind, Option.bind_some]
        rcases result with ⟨zero, taken⟩ | ⟨one, isFree⟩
        · rw [if_pos zero]
          refine ih (by omega) (Nat.dvd_add aligned dvd_rfl) more fun p unit inside isFree => ?_
          -- the next aligned position is a whole region further
          have above := before p unit inside isFree
          rcases Nat.eq_or_lt_of_le above with rfl | later
          · exact absurd isFree taken
          · obtain ⟨q, is⟩ := aligned
            obtain ⟨r, is'⟩ := unit
            have less : 2 ^ order * q < 2 ^ order * r := by omega
            have next : 2 ^ order * (q + 1) ≤ 2 ^ order * r := Nat.mul_le_mul_left _ (Nat.succ_le_of_lt (Nat.lt_of_mul_lt_mul_left less))
            rw [Nat.mul_succ] at next
            omega
        · obtain ⟨ws', ran, filled⟩ := @regOp_alloc ws pos order aligned (by omega)
          rw [if_neg (by omega), ran]
          exact ⟨pos, ws', rfl, .inl ⟨pos, rfl, ⟨⟨aligned, more, isFree⟩, fun p here => before p here.1 here.2.1 here.2.2⟩, filled⟩⟩
      · rw [if_neg more]
        refine ⟨_, ws, rfl, .inr ⟨rfl, Set.eq_empty_iff_forall_notMem.mpr fun p here => ?_, rfl⟩⟩
        have := before p here.1 here.2.1 here.2.2
        have := here.2.1
        omega

/-- Every call stays inside the words and meets its contract. -/
theorem RegionCall.meets (int : bits < 2 ^ 31) (room : bits ≤ 64 * ws.length) (c : RegionCall) (valid : c.Valid bits) :
    ∃ ret ws', c.run bits ws = some (ret, ws') ∧ c.Meets bits ws ret ws' := by
  cases c with
  | find order => exact findFreeLoop_eq int room valid (by omega) (Nat.dvd_zero _) (Nat.zero_le _) fun p _ _ _ => Nat.zero_le p
  | allocate pos order =>
      obtain ⟨aligned, inside⟩ := valid
      obtain ⟨free, test, result⟩ := @regOp_isFree ws pos order aligned (by omega)
      rw [run, bitmapAllocateRegion, test]
      simp only [Option.bind_eq_bind, Option.bind_some]
      rcases result with ⟨zero, taken⟩ | ⟨one, isFree⟩
      · rw [if_pos zero]
        exact ⟨_, ws, rfl, .inr ⟨taken, rfl, rfl⟩⟩
      · obtain ⟨ws', ran, filled⟩ := @regOp_alloc ws pos order aligned (by omega)
        rw [if_neg (by omega), ran]
        exact ⟨0, ws', rfl, .inl ⟨isFree, rfl, filled⟩⟩
  | release pos order =>
      obtain ⟨aligned, inside⟩ := valid
      obtain ⟨ws', ran, filled⟩ := @regOp_release ws pos order aligned (by omega)
      exact ⟨0, ws', by rw [run, bitmapReleaseRegion, ran]; rfl, rfl, filled⟩

/-- A call changes no bit beyond the bitmap. -/
theorem RegionCall.Meets.beyond {c : RegionCall} {ws' : List Word} {ret : Int} (valid : c.Valid bits) (meets : c.Meets bits ws ret ws') :
    ws'.length = ws.length ∧ ∀ i, bits ≤ i → bit ws' i = bit ws i := by
  have region {v : Bool} {pos order : Nat} (inside : pos + 2 ^ order ≤ bits) (filled : Filled v ws pos order ws') :
      ws'.length = ws.length ∧ ∀ i, bits ≤ i → bit ws' i = bit ws i := by
    refine ⟨filled.1, fun i beyond => ?_⟩
    rw [filled.2, if_neg (by omega)]
  cases c with
  | find order =>
      rcases meets with ⟨pos, -, least, filled⟩ | ⟨-, -, rfl⟩
      · exact region least.1.2.1 filled
      · exact ⟨rfl, fun _ _ => rfl⟩
  | allocate pos order =>
      rcases meets with ⟨-, -, filled⟩ | ⟨-, -, rfl⟩
      · exact region valid.2 filled
      · exact ⟨rfl, fun _ _ => rfl⟩
  | release pos order => exact region valid.2 meets.2

/-- In every sequence of calls each one meets its contract, and no bit beyond the bitmap changes. -/
theorem regions_run (bits : Nat) (ws : List Word) (calls : List RegionCall) (int : bits < 2 ^ 31) (room : bits ≤ 64 * ws.length)
    (valid : ∀ c ∈ calls, c.Valid bits) :
    ∃ rets ws', RegionRun bits calls ws rets ws' ∧ ws'.length = ws.length ∧ ∀ i, bits ≤ i → bit ws' i = bit ws i := by
  induction calls generalizing ws with
  | nil => exact ⟨[], ws, .done, rfl, fun _ _ => rfl⟩
  | cons c calls ih =>
      obtain ⟨ret, ws', ran, meets⟩ := RegionCall.meets int room c (valid c List.mem_cons_self)
      obtain ⟨length, kept⟩ := meets.beyond (valid c List.mem_cons_self)
      obtain ⟨rets, ws'', later, length', kept'⟩ := ih ws' (by omega) fun c member => valid c (List.mem_cons_of_mem _ member)
      exact ⟨ret :: rets, ws'', .call ran meets later, length'.trans length, fun i beyond => (kept' i beyond).trans (kept i beyond)⟩

end Calls

/-- Half a word is taken twice, the third request finds nothing, and a quarter that is given back serves the fourth. -/
theorem halves_run : ∃ rets ws', RegionRun 70 [.find 5, .find 5, .find 5, .release 16 4, .allocate 16 4] [0, 0x40] rets ws' ∧ ws'.length = 2 ∧
    ∀ i, 70 ≤ i → bit ws' i = bit [0, 0x40] i := by
  refine regions_run 70 [0, 0x40] _ (by decide) (by decide) fun c member => ?_
  simp only [List.mem_cons, List.not_mem_nil, or_false] at member
  rcases member with rfl | rfl | rfl | rfl | rfl
  · exact (by decide : 2 ^ 5 ≤ 70)
  · exact (by decide : 2 ^ 5 ≤ 70)
  · exact (by decide : 2 ^ 5 ≤ 70)
  · exact ⟨by decide, by decide⟩
  · exact ⟨by decide, by decide⟩

end Miracle.Bitmap
