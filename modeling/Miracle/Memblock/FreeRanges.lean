import Miracle.Lib.Meet
import Miracle.Memblock.Lookup

/-! # Iterating over the free ranges

`for_each_free_mem_range` and its reverse walk over the memory regions and the gaps between the reserved regions.
The two indices of a walk are kept in one `u64` between its rounds.  What a walk returns is the list of the meetings
of the two sorted families.
-/

namespace Miracle.Memblock

open Extent Meet

/-! ## The loops -/

/-- The rounds of `for_each_mem_range`, or of its reverse; `none` while it is still running.  `range` is what the
    iterator produced last. -/
def rangesLoop (next : Nat → Option MemRange) : Nat → Option MemRange → Option (List (Nat × Nat))
  | 0, _ => none
  | _ + 1, none => some []
  | rounds + 1, some range =>
      if range.idx = ullongMax then some []
      else (rangesLoop next rounds (next range.idx)).map ((range.outStart, range.outEnd) :: ·)

def nextFree (mb : State) (flags : Flags) (idx : Nat) : Option MemRange :=
  nextMemRange idx flags mb.memory (some mb.reserved)

def nextFreeRev (mb : State) (flags : Flags) (idx : Nat) : Option MemRange :=
  nextMemRangeRev idx flags mb.memory (some mb.reserved)

/-- The ranges that `for_each_free_mem_range` passes to its body. -/
def forEachFreeMemRange (mb : State) (flags : Flags) (rounds : Nat) : Option (List (Nat × Nat)) :=
  rangesLoop (nextFree mb flags) rounds (nextFree mb flags 0)

/-- The ranges that `for_each_free_mem_range_reverse` passes to its body. -/
def forEachFreeMemRangeReverse (mb : State) (flags : Flags) (rounds : Nat) : Option (List (Nat × Nat)) :=
  rangesLoop (nextFreeRev mb flags) rounds (nextFreeRev mb flags ullongMax)

/-- The ranges that an iterator produces after `first`, whether or not the loop would go on. -/
inductive Produced (next : Nat → Option MemRange) (first : Option MemRange) : MemRange → Prop
  | first {r : MemRange} (is : first = some r) : Produced next first r
  | next {r r' : MemRange} (before : Produced next first r) (is : next r.idx = some r') : Produced next first r'

/-- The iterator ends after the ranges of the list, and no index before that is the end marker. -/
inductive Yields (next : Nat → Option MemRange) : Option MemRange → List (Nat × Nat) → Prop
  | done : Yields next none []
  | more {r : MemRange} {l : List (Nat × Nat)} (marker : r.idx ≠ ullongMax) (rest : Yields next (next r.idx) l) :
      Yields next (some r) ((r.outStart, r.outEnd) :: l)

section

variable {next : Nat → Option MemRange} {first : Option MemRange} {l : List (Nat × Nat)}

theorem Yields.rangesLoop (yields : Yields next first l) {rounds : Nat} (enough : l.length < rounds) :
    rangesLoop next rounds first = some l := by
  induction yields generalizing rounds with
  | done =>
      cases rounds with
      | zero => cases enough
      | succ rounds => rfl
  | more marker _ ih =>
      cases rounds with
      | zero => cases enough
      | succ rounds =>
          rw [Memblock.rangesLoop, if_neg marker, ih (by simpa using enough)]
          rfl

theorem Yields.unique (yields : Yields next first l) {rounds : Nat} {l' : List (Nat × Nat)}
    (done : Memblock.rangesLoop next rounds first = some l') : l' = l := by
  induction yields generalizing rounds l' with
  | done =>
      cases rounds with
      | zero => cases done
      | succ rounds => exact (Option.some.inj done).symm
  | more marker _ ih =>
      cases rounds with
      | zero => cases done
      | succ rounds =>
          rw [Memblock.rangesLoop, if_neg marker] at done
          obtain ⟨tail, more, rfl⟩ := Option.map_eq_some_iff.mp done
          rw [ih more]

theorem Yields.marker (yields : Yields next first l) {r : MemRange} (produced : Produced next first r) :
    r.idx ≠ ullongMax := by
  have goesOn : ∃ rest, Yields next (some r) rest := by
    induction produced with
    | first is =>
        subst is
        exact ⟨l, yields⟩
    | next _ is ih =>
        obtain ⟨rest, yields⟩ := ih
        cases yields with
        | more _ tail => exact ⟨_, is ▸ tail⟩
  obtain ⟨rest, yields⟩ := goesOn
  cases yields with
  | more marker _ => exact marker

/-- A search stops at the first range that fits. -/
theorem Yields.findLoop (yields : Yields next first l) {fit : MemRange → Option Nat}
    (blind : ∀ r, fit r = fit ⟨0, r.outStart, r.outEnd⟩) {rounds : Nat} (enough : l.length < rounds) :
    findLoop next fit rounds first = (l.findSome? fun p => fit ⟨0, p.1, p.2⟩).getD 0 := by
  induction yields generalizing rounds with
  | done =>
      cases rounds with
      | zero => cases enough
      | succ rounds => rfl
  | @more r _ marker _ ih =>
      cases rounds with
      | zero => cases enough
      | succ rounds =>
          rw [Memblock.findLoop, if_neg marker, List.findSome?_cons, blind r]
          cases fit ⟨0, r.outStart, r.outEnd⟩ with
          | some cand => rfl
          | none => exact ih (by simpa using enough)

end

/-! ## The packed indices -/

theorem idxA_packIdx (a b : Int) : idxA (packIdx a b) = toInt32 (a % 2 ^ 32).toNat := by
  have low : (a % 2 ^ 32).toNat < 2 ^ 32 := by omega
  have mask (x : Nat) : x &&& 0xffffffff = x % 2 ^ 32 := Nat.and_two_pow_sub_one_eq_mod x 32
  rw [idxA, packIdx, mask, Nat.or_mod_two_pow, Nat.mod_eq_of_lt low, Nat.shiftLeft_eq, Nat.mul_mod_left, Nat.or_zero]

theorem toInt32_of_lt {x : Int} (low : -1 ≤ x) (high : x < 2 ^ 31) : toInt32 (x % 2 ^ 32).toNat = x := by
  unfold toInt32
  split
  · omega
  · omega

/-- An index that has passed the last `int` reads as negative, which ends the loop as well. -/
theorem belowOrEnd_toInt32 {x cnt : Nat} (le : x ≤ cnt) (few : cnt ≤ 2 ^ 31) :
    belowOrEnd (toInt32 ((x : Int) % 2 ^ 32).toNat) cnt = x := by
  unfold belowOrEnd toInt32
  split <;> split at * <;> omega

theorem packIdx_ne_max {a b : Int} (low : 0 ≤ b) (high : b ≤ 2 ^ 31) : packIdx a b ≠ ullongMax := by
  intro same
  have upper := idxB_packIdx a b
  rw [same] at upper
  have minus : idxB ullongMax = -1 := by decide
  rw [minus] at upper
  unfold toInt32 at upper
  split at upper <;> omega

/-! ## The two families -/

/-- The regions of `ta` that the flags ask for, and the gaps between the regions of `tb`. -/
def families (flags : Flags) (ta tb : MemblockType) : Families where
  use i := !(decide (flags &&& Flags.nomap = 0) && memblockIsNomap (ta.rgn i))
  lo i := (ta.rgn i).base
  hi i := (ta.rgn i).limit
  lo' := gapStart tb
  hi' := gapEnd tb

theorem families_unused {flags : Flags} {ta tb : MemblockType} {i : Nat} :
    (families flags ta tb).use i = false ↔ flags &&& Flags.nomap = 0 ∧ memblockIsNomap (ta.rgn i) = true := by
  simp [families]

/-- Only the dummy entry is empty, and it ends at zero. -/
theorem TypeInv.size_pos {t : MemblockType} (inv : TypeInv t) {i : Nat} (lt : i < t.cnt) (above : 0 < (t.rgn i).stop) :
    0 < (t.rgn i).size := by
  have member := rgn_mem lt
  rcases inv.sized with sized | dummy
  · exact sized _ member
  · rw [dummy] at member
    rw [List.mem_singleton.mp member] at above
    cases above

theorem gapStart_succ {tb : MemblockType} (inv : TypeInv tb) {j : Nat} (lt : j < tb.cnt) :
    gapStart tb (j + 1) = (tb.rgn j).stop := by
  rw [gapStart, if_neg (by omega), Nat.add_sub_cancel, rgn_limit inv lt]

theorem gapEnd_of_lt {tb : MemblockType} {j : Nat} (lt : j < tb.cnt) : gapEnd tb j = (tb.rgn j).base := if_pos lt

theorem gapEnd_last (tb : MemblockType) : gapEnd tb tb.cnt = physAddrMax := if_neg (by omega)

theorem gapStart_le {tb : MemblockType} (inv : TypeInv tb) {j : Nat} (le : j ≤ tb.cnt) :
    gapStart tb j ≤ gapEnd tb j := by
  cases j with
  | zero => exact Nat.zero_le _
  | succ j =>
      rw [gapStart_succ inv le]
      rcases Nat.lt_or_eq_of_le le with lt | last
      · rw [gapEnd_of_lt lt]
        exact rgn_sorted inv (Nat.lt_succ_self j) lt
      · rw [last, gapEnd_last]
        exact inv.bounded _ (rgn_mem le)

theorem gapEnd_le {tb : MemblockType} (inv : TypeInv tb) {j k : Nat} (lt : j < k) (le : k ≤ tb.cnt) :
    gapEnd tb j ≤ gapStart tb k := by
  obtain ⟨k, rfl⟩ : ∃ i, k = i + 1 := ⟨k - 1, by omega⟩
  rw [gapEnd_of_lt (by omega), gapStart_succ inv le]
  have base : (tb.rgn j).base ≤ (tb.rgn k).base := inv.base_le (by omega) le
  simp only [stop]
  omega

theorem families_sorted (flags : Flags) {ta tb : MemblockType} (invA : TypeInv ta) (invB : TypeInv tb) :
    Sorted (families flags ta tb) ta.cnt (tb.cnt + 1) := by
  refine ⟨?_, ?_, ?_, ?_⟩
  · intro i lt
    change (ta.rgn i).base ≤ (ta.rgn i).limit
    rw [rgn_limit invA lt]
    exact Nat.le_add_right _ _
  · intro i k lt le
    change (ta.rgn i).limit ≤ (ta.rgn k).base
    rw [rgn_limit invA (by omega)]
    exact rgn_sorted invA lt le
  · intro j lt
    exact gapStart_le invB (Nat.le_of_lt_succ lt)
  · intro j k lt le
    exact gapEnd_le invB lt (Nat.le_of_lt_succ le)

/-! ## One call of an iterator -/

/-- The call returns the head of what lies ahead of the indices and moves them past it. -/
def Advances (f : Families) (m n a b : Nat) : Option MemRange → Prop
  | none => ahead f m n a b = []
  | some r => ∃ a' b' : Nat, r.idx = packIdx a' b' ∧ a' ≤ m ∧ b' ≤ n ∧ a + b < a' + b' ∧
      ahead f m n a b = (r.outStart, r.outEnd) :: ahead f m n a' b'

theorem Advances.before {f : Families} {m n a b a' b' : Nat} {out : Option MemRange}
    (advances : Advances f m n a' b' out) (same : ahead f m n a b = ahead f m n a' b') (le : a + b ≤ a' + b') :
    Advances f m n a b out := by
  cases out with
  | none => exact same.trans advances
  | some r =>
      obtain ⟨a'', b'', idx, ha, hb, lt, head⟩ := advances
      exact ⟨a'', b'', idx, ha, hb, by omega, same.trans head⟩

/-- The same downwards; the indices of the model are one more than those of the source. -/
def Retreats (f : Families) (a b : Nat) : Option MemRange → Prop
  | none => behind f a b = []
  | some r => ∃ a' b' : Nat, r.idx = packIdx ((a' : Int) - 1) ((b' : Int) - 1) ∧ a' ≤ a ∧ 0 < b' ∧ b' ≤ b ∧
      a' + b' < a + b ∧ behind f a b = (r.outStart, r.outEnd) :: behind f a' b'

theorem Retreats.after {f : Families} {a b a' b' : Nat} {out : Option MemRange} (retreats : Retreats f a' b' out)
    (same : behind f a b = behind f a' b') (ha : a' ≤ a) (hb : b' ≤ b) : Retreats f a b out := by
  cases out with
  | none => exact same.trans retreats
  | some r =>
      obtain ⟨a'', b'', idx, ha', pos, hb', lt, head⟩ := retreats
      exact ⟨a'', b'', idx, by omega, pos, by omega, by omega, same.trans head⟩

section

variable {flags : Flags} {ta tb : MemblockType} (sorted : Sorted (families flags ta tb) ta.cnt (tb.cnt + 1))

include sorted

/-- The inner loop finds the next meeting of region `a`, or goes past the gaps that lie below its end. -/
theorem nextMemRangeGaps_advances {a : Nat} (ha : a < ta.cnt) (used : (families flags ta tb).use a) :
    ∀ (fuel b : Nat), fuel = tb.cnt + 1 - b → b ≤ tb.cnt + 1 →
      match nextMemRangeGaps tb a (ta.rgn a).base (ta.rgn a).limit fuel b with
      | .inl r => Advances (families flags ta tb) ta.cnt (tb.cnt + 1) a b (some r)
      | .inr b' => b ≤ b' ∧ b' ≤ tb.cnt + 1 ∧
          ahead (families flags ta tb) ta.cnt (tb.cnt + 1) a b =
            ahead (families flags ta tb) ta.cnt (tb.cnt + 1) (a + 1) b' := by
  intro fuel
  induction fuel with
  | zero =>
      intro b fuel le
      rw [nextMemRangeGaps]
      refine ⟨le_rfl, le, ?_⟩
      rw [ahead_done (.inr (by omega)), ahead_done (.inr (by omega))]
  | succ fuel ih =>
      intro b fuel le
      have hb : b < tb.cnt + 1 := by omega
      rw [nextMemRangeGaps, if_pos hb]
      by_cases past : gapStart tb b ≥ (ta.rgn a).limit
      · simp only [if_pos past]
        exact ⟨le_rfl, le, ahead_stop sorted ha past⟩
      simp only [if_neg past]
      by_cases meeting : (ta.rgn a).base < gapEnd tb b
      · simp only [if_pos meeting]
        by_cases first : (ta.rgn a).limit ≤ gapEnd tb b
        · refine ⟨a + 1, b, by simp [first], ha, hb.le, by omega, ?_⟩
          exact ahead_take_row sorted ha hb used meeting (Nat.lt_of_not_le past) first
        · refine ⟨a, b + 1, by simp [first], ha.le, hb, by omega, ?_⟩
          exact ahead_take_column sorted ha hb used meeting (Nat.lt_of_not_le past) (Nat.lt_of_not_le first)
      · simp only [if_neg meeting]
        have skip := ahead_skip sorted hb (Nat.le_of_not_lt meeting)
        have rest := ih (b + 1) (by omega) hb
        split at rest
        · exact rest.before skip (by omega)
        · obtain ⟨low, high, same⟩ := rest
          exact ⟨by omega, high, skip.trans same⟩

theorem nextMemRangeLoop_advances :
    ∀ (fuel a b : Nat), fuel = ta.cnt + 1 - a → b ≤ tb.cnt + 1 →
      Advances (families flags ta tb) ta.cnt (tb.cnt + 1) a b (nextMemRangeLoop flags ta (some tb) fuel a b) := by
  intro fuel
  induction fuel with
  | zero =>
      intro a b fuel _
      exact ahead_done (.inl (by omega))
  | succ fuel ih =>
      intro a b fuel hb
      rw [nextMemRangeLoop]
      by_cases ha : a < ta.cnt
      · simp only [if_pos ha]
        split
        · rename_i unused
          exact (ih (a + 1) b (by omega) hb).before (ahead_unused ha (families_unused.mpr unused)) (by omega)
        · rename_i wanted
          have used : (families flags ta tb).use a = true := by
            rw [← Bool.not_eq_false, families_unused]
            exact wanted
          have gaps := nextMemRangeGaps_advances sorted ha used (tb.cnt + 1 - b) b rfl hb
          generalize nextMemRangeGaps tb a _ _ _ b = out at gaps ⊢
          cases out with
          | inl range => exact gaps
          | inr b' =>
              obtain ⟨low, high, same⟩ := gaps
              exact (ih (a + 1) b' (by omega) high).before same (by omega)
      · rw [if_neg ha]
        exact ahead_done (.inl (by omega))

/-- The inner loop of the reverse walk. -/
theorem nextMemRangeRevGaps_retreats {a : Nat} (ha : a < ta.cnt) (used : (families flags ta tb).use a) :
    ∀ b : Nat, b ≤ tb.cnt + 1 →
      match nextMemRangeRevGaps tb a (ta.rgn a).base (ta.rgn a).limit b with
      | .inl r => Retreats (families flags ta tb) (a + 1) b (some r)
      | .inr b' => b' ≤ b ∧ behind (families flags ta tb) (a + 1) b = behind (families flags ta tb) a b' := by
  intro b
  induction b with
  | zero =>
      intro _
      rw [nextMemRangeRevGaps]
      refine ⟨le_rfl, ?_⟩
      rw [behind_done (.inr rfl), behind_done (.inr rfl)]
  | succ b ih =>
      intro hb
      rw [nextMemRangeRevGaps]
      by_cases past : gapEnd tb b ≤ (ta.rgn a).base
      · simp only [if_pos past]
        exact ⟨le_rfl, behind_stop sorted hb past⟩
      simp only [if_neg past]
      by_cases meeting : (ta.rgn a).limit > gapStart tb b
      · simp only [if_pos meeting]
        by_cases first : (ta.rgn a).base ≥ gapStart tb b
        · refine ⟨a, b + 1, by simp [first], by omega, by omega, le_rfl, by omega, ?_⟩
          exact behind_take_row sorted used (Nat.lt_of_not_le past) meeting hb first
        · -- the first gap starts at zero, so `idx_b` stays in the array
          have pos : 0 < b := by
            rcases Nat.eq_zero_or_pos b with rfl | pos
            · exact absurd (Nat.zero_le _) first
            · exact pos
          refine ⟨a + 1, b, by simp [first], le_rfl, pos, by omega, by omega, ?_⟩
          exact behind_take_column sorted ha used (Nat.lt_of_not_le past) meeting (Nat.lt_of_not_le first)
      · simp only [if_neg meeting]
        have skip := behind_skip sorted ha (Nat.le_of_not_lt meeting)
        have rest := ih (by omega)
        split at rest
        · exact rest.after skip le_rfl (by omega)
        · obtain ⟨low, same⟩ := rest
          exact ⟨by omega, skip.trans same⟩

theorem nextMemRangeRevLoop_retreats :
    ∀ a b : Nat, a ≤ ta.cnt → b ≤ tb.cnt + 1 →
      Retreats (families flags ta tb) a b (nextMemRangeRevLoop flags ta (some tb) a b) := by
  intro a
  induction a with
  | zero =>
      intro b _ _
      exact behind_done (.inl rfl)
  | succ a ih =>
      intro b ha hb
      rw [nextMemRangeRevLoop]
      split
      · rename_i unused
        exact (ih b (by omega) hb).after (behind_unused (families_unused.mpr unused)) (by omega) le_rfl
      · rename_i wanted
        have used : (families flags ta tb).use a = true := by
          rw [← Bool.not_eq_false, families_unused]
          exact wanted
        have gaps := nextMemRangeRevGaps_retreats sorted ha used b hb
        generalize nextMemRangeRevGaps tb a _ _ b = out at gaps ⊢
        cases out with
        | inl range => exact gaps
        | inr b' =>
            obtain ⟨low, same⟩ := gaps
            exact (ih b' (by omega) (by omega)).after same (by omega) low

end

/-! ## Whole walks -/

/-- What the walks return, in increasing order. -/
def freeRanges (mb : State) (flags : Flags) : List (Nat × Nat) :=
  ahead (families flags mb.memory mb.reserved) mb.memory.cnt (mb.reserved.cnt + 1) 0 0

/-- The indices of both arrays fit in an `int`. -/
structure Indexed (mb : State) : Prop where
  memory : mb.memory.cnt ≤ 2 ^ 31
  reserved : mb.reserved.cnt < 2 ^ 31

section

variable {mb : State} (inv : Inv mb) (indexed : Indexed mb) (flags : Flags)

include indexed

theorem nextFree_packIdx {a b : Nat} (ha : a ≤ mb.memory.cnt) (hb : b ≤ mb.reserved.cnt + 1) :
    nextFree mb flags (packIdx a b) =
      nextMemRangeLoop flags mb.memory (some mb.reserved) (mb.memory.cnt + 1 - a) a b := by
  have first := belowOrEnd_toInt32 ha indexed.memory
  have second := belowOrEnd_toInt32 hb indexed.reserved
  simp only [nextFree, nextMemRange, idxA_packIdx, idxB_packIdx, first, second]

theorem nextFreeRev_packIdx {a b : Nat} (ha : a ≤ mb.memory.cnt) (pos : 0 < b) (hb : b ≤ mb.reserved.cnt + 1) :
    nextFreeRev mb flags (packIdx ((a : Int) - 1) ((b : Int) - 1)) =
      nextMemRangeRevLoop flags mb.memory (some mb.reserved) a b := by
  have few := indexed.memory
  have few' := indexed.reserved
  have marker : packIdx ((a : Int) - 1) ((b : Int) - 1) ≠ ullongMax := packIdx_ne_max (by omega) (by omega)
  rw [nextFreeRev, nextMemRangeRev, if_neg marker, idxA_packIdx, idxB_packIdx, toInt32_of_lt (by omega) (by omega),
    toInt32_of_lt (by omega) (by omega), Int.sub_add_cancel, Int.sub_add_cancel, Int.toNat_natCast, Int.toNat_natCast]

omit indexed
include inv

theorem free_sorted : Sorted (families flags mb.memory mb.reserved) mb.memory.cnt (mb.reserved.cnt + 1) :=
  families_sorted flags (inv .memory) (inv .reserved)

include indexed

/-- The walk upwards from any pair of indices. -/
theorem nextFree_yields : ∀ (left a b : Nat), a ≤ mb.memory.cnt → b ≤ mb.reserved.cnt + 1 →
    mb.memory.cnt + (mb.reserved.cnt + 1) < a + b + left →
    let rest := ahead (families flags mb.memory mb.reserved) mb.memory.cnt (mb.reserved.cnt + 1) a b
    Yields (nextFree mb flags) (nextFree mb flags (packIdx a b)) rest ∧ rest.length < left := by
  have few := indexed.reserved
  intro left
  induction left with
  | zero =>
      intro a b ha hb enough
      omega
  | succ left ih =>
      intro a b ha hb enough
      have advances := nextMemRangeLoop_advances (free_sorted inv flags) _ a b rfl hb
      rw [← nextFree_packIdx indexed flags ha hb] at advances
      generalize nextFree mb flags (packIdx a b) = out at advances ⊢
      cases out with
      | none =>
          simp only [Advances] at advances
          rw [advances]
          exact ⟨.done, Nat.succ_pos _⟩
      | some r =>
          obtain ⟨a', b', idx, ha', hb', moved, head⟩ := advances
          obtain ⟨yields, short⟩ := ih a' b' ha' hb' (by omega)
          have marker : r.idx ≠ ullongMax := by
            rw [idx]
            exact packIdx_ne_max (by omega) (by omega)
          rw [← idx] at yields
          simp only [head]
          exact ⟨.more marker yields, Nat.succ_lt_succ short⟩

/-- The walk downwards from any pair of indices. -/
theorem nextFreeRev_yields : ∀ (left a b : Nat), a ≤ mb.memory.cnt → 0 < b → b ≤ mb.reserved.cnt + 1 → a + b ≤ left →
    Yields (nextFreeRev mb flags) (nextFreeRev mb flags (packIdx ((a : Int) - 1) ((b : Int) - 1)))
      (behind (families flags mb.memory mb.reserved) a b) := by
  have few := indexed.reserved
  intro left
  induction left with
  | zero =>
      intro a b _ pos _ enough
      omega
  | succ left ih =>
      intro a b ha pos hb enough
      have retreats := nextMemRangeRevLoop_retreats (free_sorted inv flags) a b ha hb
      rw [← nextFreeRev_packIdx indexed flags ha pos hb] at retreats
      generalize nextFreeRev mb flags (packIdx ((a : Int) - 1) ((b : Int) - 1)) = out at retreats ⊢
      cases out with
      | none =>
          simp only [Retreats] at retreats
          rw [retreats]
          exact .done
      | some r =>
          obtain ⟨a', b', idx, ha', pos', hb', moved, head⟩ := retreats
          have yields := ih a' b' (by omega) pos' (by omega) (by omega)
          have marker : r.idx ≠ ullongMax := by
            rw [idx]
            exact packIdx_ne_max (by omega) (by omega)
          rw [head]
          rw [← idx] at yields
          exact .more marker yields

theorem freeRanges_spec :
    Yields (nextFree mb flags) (nextFree mb flags 0) (freeRanges mb flags) ∧
      (freeRanges mb flags).length < iterations mb := by
  apply nextFree_yields inv indexed flags (iterations mb) 0 0 (Nat.zero_le _) (Nat.zero_le _)
  rw [iterations]
  omega

theorem freeRanges_yields_reverse :
    Yields (nextFreeRev mb flags) (nextFreeRev mb flags ullongMax) (freeRanges mb flags).reverse := by
  have few := indexed.memory
  have few' := indexed.reserved
  have pos : 1 ≤ mb.memory.cnt := (inv .memory).cnt_pos
  have yields := nextFreeRev_yields inv indexed flags _ mb.memory.cnt (mb.reserved.cnt + 1) le_rfl (Nat.succ_pos _)
    le_rfl le_rfl
  rw [behind_eq, nextFreeRev_packIdx indexed flags le_rfl (Nat.succ_pos _) le_rfl] at yields
  -- the first call takes its indices from the counts
  have first : toInt32 (u64Sub mb.memory.cnt 1 % 2 ^ 32) = (mb.memory.cnt : Int) - 1 := by
    rw [u64Sub_of_le (by omega) pos, toInt32, if_pos (by omega)]
    omega
  have second : toInt32 (mb.reserved.cnt % 2 ^ 32) = mb.reserved.cnt := by
    rw [toInt32, if_pos (by omega)]
    omega
  have start : nextFreeRev mb flags ullongMax =
      nextMemRangeRevLoop flags mb.memory (some mb.reserved) mb.memory.cnt (mb.reserved.cnt + 1) := by
    rw [nextFreeRev, nextMemRangeRev, if_pos rfl]
    simp only [first, second]
    rw [Int.sub_add_cancel, Int.toNat_natCast]
    rfl
  rw [start]
  exact yields

end

/-! ## What the walks return -/

/-- An address of mapped memory that is not reserved. -/
def State.IsFree (mb : State) (x : Nat) : Prop :=
  (∃ flags, mb.map .memory x = some flags ∧ flags &&& Flags.nomap = 0) ∧ mb.map .reserved x = none

/-- The range lies in one region of mapped memory. -/
def InRegion (mb : State) (p : Nat × Nat) : Prop :=
  ∃ m ∈ mb.memory.regions, memblockIsNomap m = false ∧ m.base ≤ p.1 ∧ p.2 ≤ m.stop

/-- Two reserved regions with different flags touch at `x`. -/
def TouchAt (mb : State) (x : Nat) : Prop :=
  ∃ i, i + 1 < mb.reserved.cnt ∧ (mb.reserved.rgn i).stop = x ∧ (mb.reserved.rgn (i + 1)).base = x ∧
    (mb.reserved.rgn i).tag ≠ (mb.reserved.rgn (i + 1)).tag

theorem isNomap_eq_false {m : Region} : memblockIsNomap m = false ↔ m.tag &&& Flags.nomap = 0 := by
  simp [memblockIsNomap]

/-- An address lies in a gap if no region of the array holds it. -/
theorem exists_gap {tb : MemblockType} (inv : TypeInv tb) {x : Nat} (bound : x < physAddrMax) :
    (∃ j ∈ List.range' 0 (tb.cnt + 1 - 0), gapStart tb j ≤ x ∧ x < gapEnd tb j) ↔ lookup tb.regions x = none := by
  constructor
  · rintro ⟨j, member, low, high⟩
    have le := (mem_range'_iff.mp member).2
    have gap : InGap tb x (x + 1) := ⟨bound, j, Nat.le_of_lt_succ le, low, high⟩
    exact gap.free inv le_rfl (Nat.lt_succ_self x)
  · intro free
    rw [lookup_eq_none_iff] at free
    -- the first gap that ends above the address
    have ends : ∃ j, x < gapEnd tb j := ⟨tb.cnt, by rwa [gapEnd_last]⟩
    have le : Nat.find ends ≤ tb.cnt := Nat.find_min' ends (by rwa [gapEnd_last])
    refine ⟨Nat.find ends, mem_range'_iff.mpr ⟨Nat.zero_le _, by omega⟩, ?_, Nat.find_spec ends⟩
    generalize first : Nat.find ends = j at le
    cases j with
    | zero => exact Nat.zero_le _
    | succ j =>
        have below : ¬ x < gapEnd tb j := Nat.find_min ends (by omega)
        rw [gapEnd_of_lt le] at below
        rw [gapStart_succ inv le]
        have outside := free _ (rgn_mem le)
        simp only [Contains] at outside
        omega

section

variable {mb : State} (inv : Inv mb) {flags : Flags} (mapped : flags &&& Flags.nomap = 0)

include mapped

theorem families_used {ta tb : MemblockType} {i : Nat} :
    (families flags ta tb).use i = true ↔ memblockIsNomap (ta.rgn i) = false := by
  rw [← Bool.not_eq_false, families_unused, ← Bool.not_eq_true]
  simp [mapped]

include inv

theorem exists_region {x : Nat} :
    (∃ i ∈ List.range' 0 (mb.memory.cnt - 0), (families flags mb.memory mb.reserved).use i = true ∧
      (mb.memory.rgn i).base ≤ x ∧ x < (mb.memory.rgn i).limit) ↔
      ∃ flags, mb.map .memory x = some flags ∧ flags &&& Flags.nomap = 0 := by
  constructor
  · rintro ⟨i, member, used, low, high⟩
    have lt := (mem_range'_iff.mp member).2
    have limit : (mb.memory.rgn i).limit = (mb.memory.rgn i).stop := rgn_limit (inv .memory) lt
    rw [limit] at high
    obtain ⟨l, contents⟩ := (inv .memory).contents
    have found : mb.map .memory x = some (mb.memory.rgn i).tag := lookup_rgn contents lt ⟨low, high⟩
    exact ⟨_, found, isNomap_eq_false.mp ((families_used mapped).mp used)⟩
  · rintro ⟨tag, found, usable⟩
    obtain ⟨m, member, inside, rfl⟩ := lookup_eq_some found
    obtain ⟨i, lt, rfl⟩ := exists_rgn member
    refine ⟨i, mem_range'_iff.mpr ⟨Nat.zero_le _, lt⟩, ?_, inside.1, ?_⟩
    · exact (families_used mapped).mpr (isNomap_eq_false.mpr usable)
    · have limit : (mb.memory.rgn i).limit = (mb.memory.rgn i).stop := rgn_limit (inv .memory) lt
      rw [limit]
      exact inside.2

/-- The ranges cover what is free. -/
theorem mem_freeRanges_iff {x : Nat} : (∃ p ∈ freeRanges mb flags, p.1 ≤ x ∧ x < p.2) ↔ mb.IsFree x := by
  rw [freeRanges, ahead, mem_meets_iff]
  have region := exists_region inv mapped (x := x)
  constructor
  · rintro ⟨memory, gap⟩
    obtain ⟨tag, found, usable⟩ := region.mp memory
    obtain ⟨m, member, inside, -⟩ := lookup_eq_some found
    have bound : x < physAddrMax := lt_of_lt_of_le inside.2 ((inv .memory).bounded m member)
    exact ⟨⟨tag, found, usable⟩, (exists_gap (inv .reserved) bound).mp gap⟩
  · rintro ⟨⟨tag, found, usable⟩, free⟩
    obtain ⟨m, member, inside, -⟩ := lookup_eq_some found
    have bound : x < physAddrMax := lt_of_lt_of_le inside.2 ((inv .memory).bounded m member)
    exact ⟨region.mpr ⟨tag, found, usable⟩, (exists_gap (inv .reserved) bound).mpr free⟩

/-- Every range is the meeting of a region and a gap. -/
theorem freeRanges_meet {p : Nat × Nat} (member : p ∈ freeRanges mb flags) :
    ∃ i < mb.memory.cnt, ∃ j ≤ mb.reserved.cnt, memblockIsNomap (mb.memory.rgn i) = false ∧
      (mb.memory.rgn i).base < gapEnd mb.reserved j ∧ gapStart mb.reserved j < (mb.memory.rgn i).stop ∧
      p = (max (mb.memory.rgn i).base (gapStart mb.reserved j),
        min (mb.memory.rgn i).stop (gapEnd mb.reserved j)) := by
  obtain ⟨i, hi, j, hj, member⟩ := mem_meets.mp member
  have lt := (mem_range'_iff.mp hi).2
  have le := (mem_range'_iff.mp hj).2
  obtain ⟨used, low, high, rfl⟩ := mem_meet.mp member
  have limit : (mb.memory.rgn i).limit = (mb.memory.rgn i).stop := rgn_limit (inv .memory) lt
  simp only [families, limit] at low high ⊢
  exact ⟨i, lt, j, Nat.le_of_lt_succ le, (families_used mapped).mp used, low, high, rfl⟩

theorem freeRanges_le {p : Nat × Nat} (member : p ∈ freeRanges mb flags) : p.1 ≤ p.2 := by
  obtain ⟨i, -, j, le, -, low, high, rfl⟩ := freeRanges_meet inv mapped member
  have order : gapStart mb.reserved j ≤ gapEnd mb.reserved j := gapStart_le (inv .reserved) le
  have size : (mb.memory.rgn i).base ≤ (mb.memory.rgn i).stop := Nat.le_add_right _ _
  simp only
  omega

theorem freeRanges_inRegion {p : Nat × Nat} (member : p ∈ freeRanges mb flags) : InRegion mb p := by
  obtain ⟨i, lt, j, -, usable, -, -, rfl⟩ := freeRanges_meet inv mapped member
  exact ⟨mb.memory.rgn i, rgn_mem lt, usable, Nat.le_max_left _ _, Nat.min_le_left _ _⟩

/-- A gap is empty only between regions that touch. -/
theorem freeRanges_nonempty (minimal : mb.reserved.Minimal) {p : Nat × Nat} (member : p ∈ freeRanges mb flags) :
    p.1 < p.2 ∨ p.1 = p.2 ∧ TouchAt mb p.1 := by
  obtain ⟨i, lt, j, le, -, low, high, rfl⟩ := freeRanges_meet inv mapped member
  have order : gapStart mb.reserved j ≤ gapEnd mb.reserved j := gapStart_le (inv .reserved) le
  have size : (mb.memory.rgn i).base ≤ (mb.memory.rgn i).stop := Nat.le_add_right _ _
  have bound : (mb.memory.rgn i).stop ≤ physAddrMax := (inv .memory).bounded _ (rgn_mem lt)
  have proper : (mb.memory.rgn i).base < (mb.memory.rgn i).stop :=
    Nat.lt_add_of_pos_right ((inv .memory).size_pos lt (Nat.zero_lt_of_lt high))
  simp only
  rcases Nat.lt_or_eq_of_le order with open_ | closed
  · left
    omega
  · right
    refine ⟨by omega, ?_⟩
    -- neither the first nor the last gap is empty here
    obtain ⟨k, rfl⟩ : ∃ k, j = k + 1 := by
      cases j with
      | zero =>
          have start : gapStart mb.reserved 0 = 0 := rfl
          omega
      | succ k => exact ⟨k, rfl⟩
    have inner : k + 1 < mb.reserved.cnt := by
      rcases Nat.lt_or_eq_of_le le with inner | last
      · exact inner
      · rw [last, gapEnd_last] at closed
        rw [last] at high
        omega
    have start : gapStart mb.reserved (k + 1) = (mb.reserved.rgn k).stop := gapStart_succ (inv .reserved) le
    have end_ : gapEnd mb.reserved (k + 1) = (mb.reserved.rgn (k + 1)).base := gapEnd_of_lt inner
    have limit : (mb.reserved.rgn k).limit = (mb.reserved.rgn k).stop := rgn_limit (inv .reserved) le
    refine ⟨k, inner, by omega, by omega, fun tags => minimal k inner ⟨?_, tags⟩⟩
    omega

omit mapped in
theorem freeRanges_sorted : (freeRanges mb flags).Pairwise fun p q => p.2 ≤ q.1 := by
  have sorted := free_sorted inv flags
  apply meets_sorted
  · apply (List.pairwise_lt_range' 1 Nat.one_pos).imp_of_mem
    intro i k _ hk lt
    exact sorted.rows i k lt (mem_range'_iff.mp hk).2
  · apply (List.pairwise_lt_range' 1 Nat.one_pos).imp_of_mem
    intro j k _ hk lt
    exact sorted.columns j k lt (mem_range'_iff.mp hk).2

end

/-- Both walks end, at the same ranges in opposite order.  They lie in one region each, ascend without overlap and
    cover what is free; one is empty only where reserved regions with different flags touch. -/
theorem free_range_iteration {mb : State} (inv : Inv mb) (minimal : ∀ ty, (mb.type ty).Minimal) (indexed : Indexed mb)
    {flags : Flags} (mapped : flags &&& Flags.nomap = 0) :
    ∃ l, (∀ rounds ≥ iterations mb, forEachFreeMemRange mb flags rounds = some l ∧
        forEachFreeMemRangeReverse mb flags rounds = some l.reverse) ∧
      l.Pairwise (fun p q => p.2 ≤ q.1) ∧
      (∀ p ∈ l, InRegion mb p ∧ (p.1 < p.2 ∨ p.1 = p.2 ∧ TouchAt mb p.1)) ∧
      (∀ x, (∃ p ∈ l, p.1 ≤ x ∧ x < p.2) ↔ mb.IsFree x) ∧
      (∀ r, Produced (nextFree mb flags) (nextFree mb flags 0) r → r.idx ≠ ullongMax) ∧
      ∀ r, Produced (nextFreeRev mb flags) (nextFreeRev mb flags ullongMax) r → r.idx ≠ ullongMax := by
  obtain ⟨up, short⟩ := freeRanges_spec inv indexed flags
  have down := freeRanges_yields_reverse inv indexed flags
  refine ⟨freeRanges mb flags, ?_, freeRanges_sorted inv, ?_, ?_, ?_, ?_⟩
  · intro rounds enough
    refine ⟨up.rangesLoop (by omega), down.rangesLoop ?_⟩
    rw [List.length_reverse]
    omega
  · intro p member
    exact ⟨freeRanges_inRegion inv mapped member, freeRanges_nonempty inv mapped (minimal .reserved) member⟩
  · intro x
    exact mem_freeRanges_iff inv mapped
  · intro r produced
    exact up.marker produced
  · intro r produced
    exact down.marker produced

theorem minimal_of_one {t : MemblockType} (one : t.cnt = 1) : t.Minimal := by
  intro i lt
  omega

theorem fourPages_iteration :
    ∃ l, ∀ rounds ≥ 4, forEachFreeMemRange State.fourPages Flags.none rounds = some l ∧
      forEachFreeMemRangeReverse State.fourPages Flags.none rounds = some l.reverse := by
  have minimal : ∀ ty, (State.fourPages.type ty).Minimal := by
    intro ty
    cases ty with
    | memory => exact minimal_of_one rfl
    | reserved => exact minimal_of_one rfl
  obtain ⟨l, loops, -⟩ := free_range_iteration State.fourPages_inv minimal ⟨by decide, by decide⟩
    (by decide : Flags.none &&& Flags.nomap = 0)
  exact ⟨l, loops⟩

/-! ## Touching reservations and large arrays -/

/-- Both walks end at one list of proper ranges, in opposite order, that ascend, lie in one region each and cover what
    is free. -/
def IteratesFree (mb : State) (flags : Flags) : Prop :=
  ∃ l, (∃ rounds, forEachFreeMemRange mb flags rounds = some l) ∧
    (∃ rounds, forEachFreeMemRangeReverse mb flags rounds = some l.reverse) ∧
    l.Pairwise (fun p q => p.2 ≤ q.1) ∧ (∀ p ∈ l, p.1 < p.2 ∧ InRegion mb p) ∧
    ∀ x, (∃ p ∈ l, p.1 ≤ x ∧ x < p.2) ↔ mb.IsFree x

/-- Two reserved pages with different flags in the middle of memory. -/
def State.touching : State :=
  { State.init with
    memory := { MemblockType.init with regions := [⟨0x1000, 0x8000, Flags.none⟩], totalSize := 0x8000 }
    reserved :=
      { MemblockType.init with
        regions := [⟨0x3000, 0x1000, Flags.none⟩, ⟨0x4000, 0x1000, Flags.dma⟩], totalSize := 0x2000 } }

theorem State.touching_inv : Inv State.touching := by
  intro ty
  cases ty with
  | memory => exact ⟨by decide, by decide, by decide, .inl (by decide), by unfold Bounded; decide, by decide⟩
  | reserved => exact ⟨by decide, by decide, by decide, .inl (by decide), by unfold Bounded; decide, by decide⟩

theorem State.touching_minimal : ∀ ty, (State.touching.type ty).Minimal := by
  intro ty
  cases ty with
  | memory => exact minimal_of_one rfl
  | reserved =>
      intro i lt
      have first : i = 0 := by
        have few : i + 1 < 2 := lt
        omega
      subst first
      decide

theorem State.manyBytes_rgn {n i : Nat} (lt : i < n) : (State.manyBytes n).memory.rgn i = ⟨2 * i + 1, 1, Flags.none⟩ := by
  have lt' : i < (State.manyBytes n).memory.regions.length := by
    change i < (State.manyBytes n).memory.cnt
    rwa [State.manyBytes_cnt]
  rw [rgn_eq_getElem lt']
  simp [State.manyBytes, MemblockType.odd, oddBytes]

theorem State.manyBytes_minimal (n : Nat) : ∀ ty, ((State.manyBytes n).type ty).Minimal := by
  intro ty
  cases ty with
  | memory =>
      intro i lt
      have lt : i + 1 < n := by rwa [State.type, State.manyBytes_cnt] at lt
      simp only [State.type, State.manyBytes_rgn lt, State.manyBytes_rgn (Nat.lt_of_succ_lt lt), Region.limit, u64]
      omega
  | reserved => exact minimal_of_one rfl

/-- The first index of the walk downwards does not fit in an `int`. -/
theorem manyBytes_reverse_none : nextFreeRev (State.manyBytes (2 ^ 31 + 1)) Flags.none ullongMax = none := by
  have first : toInt32 (u64Sub (State.manyBytes (2 ^ 31 + 1)).memory.cnt 1 % 2 ^ 32) = -2 ^ 31 := by
    rw [State.manyBytes_cnt]
    decide
  rw [nextFreeRev, nextMemRangeRev, if_pos rfl]
  simp only [first]
  rfl

/-- An empty range between touching reservations, and no range at all from indices that do not fit. -/
theorem iteration_fails :
    (Inv State.touching ∧ (∀ ty, (State.touching.type ty).Minimal) ∧ ¬ IteratesFree State.touching Flags.none) ∧
      Inv (State.manyBytes (2 ^ 31 + 1)) ∧ (∀ ty, ((State.manyBytes (2 ^ 31 + 1)).type ty).Minimal) ∧
        ¬ IteratesFree (State.manyBytes (2 ^ 31 + 1)) Flags.none := by
  have inv : Inv (State.manyBytes (2 ^ 31 + 1)) := State.manyBytes_inv (by omega) (by omega)
  refine ⟨⟨State.touching_inv, State.touching_minimal, ?_⟩, inv, State.manyBytes_minimal _, ?_⟩
  · rintro ⟨l, ⟨rounds, ends⟩, -, -, proper, -⟩
    have yields := (freeRanges_spec State.touching_inv ⟨by decide, by decide⟩ Flags.none).1
    have member : (0x4000, 0x4000) ∈ freeRanges State.touching Flags.none := by decide
    rw [← yields.unique ends] at member
    exact absurd (proper _ member).1 (by decide)
  · rintro ⟨l, -, ⟨rounds, ends⟩, -, -, covers⟩
    rw [forEachFreeMemRangeReverse, manyBytes_reverse_none] at ends
    have empty : l = [] := List.reverse_eq_nil_iff.mp (Yields.done.unique ends)
    have free : (State.manyBytes (2 ^ 31 + 1)).IsFree 1 := by
      obtain ⟨regions, contents⟩ := (inv .memory).contents
      have byte := State.manyBytes_rgn (Nat.succ_pos (2 ^ 31))
      have lt : 0 < (State.manyBytes (2 ^ 31 + 1)).memory.cnt := (inv .memory).cnt_pos
      have found : (State.manyBytes (2 ^ 31 + 1)).map .memory 1 = some Flags.none := by
        have inside : ((State.manyBytes (2 ^ 31 + 1)).memory.rgn 0).Contains 1 := by
          rw [byte]
          decide
        exact (lookup_rgn contents lt inside).trans (congrArg (fun r => some (Extent.tag r)) byte)
      exact ⟨⟨Flags.none, found, by decide⟩, by decide⟩
    obtain ⟨p, member, -⟩ := (covers 1).mpr free
    rw [empty] at member
    cases member

end Miracle.Memblock
